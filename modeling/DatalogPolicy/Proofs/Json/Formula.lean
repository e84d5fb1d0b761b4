import DatalogPolicy.CommandLine.Report
import DatalogPolicy.Proofs.Compile.FreshVariables
import DatalogPolicy.Proofs.Compile.Printability
import DatalogPolicy.Proofs.Json.Readability

/-!
# Policies are told by their JSON texts

Policies with the same JSON text say the same in the same order if the numbers of one of them
are finite. The JSON text of an infinite number is null, whatever its sign.
-/

namespace DatalogPolicy

open Json (canonical)

/-- Whether a term, if it is a binary number, is a finite one. -/
def Term.isFinite : Term → Bool
  | .const (.float x) => x.isFinite
  | _ => true

/-- Whether all numbers among the arguments of a literal are finite. -/
def Literal.isFinite (l : Literal) : Bool := l.arguments.all (·.item.isFinite)

/-- Whether all numbers of a formula are finite. -/
def Formula.isFinite (f : Formula) : Bool := f.literals.all (·.isFinite)

section Terms

variable {t u : Term}

theorem Value.toJson_inj {v w : Value} (h : v.toJson = w.toJson) : v = w := by
  cases v with
  | str s =>
      cases w with
      | str s' => rw [Json.str.inj h]
      | int i => cases h
      | float x => cases h
  | int i =>
      cases w with
      | str s => cases h
      | int i' => rw [Int64.toInt_inj.1 (Json.int.inj h)]
      | float x => cases h
  | float x =>
      cases w with
      | str s => cases h
      | int i => cases h
      | float x' => rw [Json.float.inj h]

theorem Term.toJson_inj (h : t.toJson = u.toJson) : t = u := by
  cases t with
  | var x =>
      cases u with
      | var y =>
          cases h
          rfl
      | const w => cases w <;> cases h
  | const v =>
      cases u with
      | var y => cases v <;> cases h
      | const w => rw [Value.toJson_inj h]

theorem Term.toJson_ne_null (t : Term) : t.toJson ≠ .null := by
  intro h
  cases t with
  | var x => cases h
  | const v => cases v <;> cases h

/-- A term is read from its text as it is, unless it is a number without digits. -/
theorem Term.canonical_toJson (t : Term) :
    t.toJson.canonical = if t.isFinite then t.toJson else .null := by
  cases t with
  | var x =>
      rw [toJson, canonical, List.map_singleton, canonical]
      rfl
  | const v => cases v <;> (rw [toJson, Value.toJson, canonical]; rfl)

theorem Term.eq_of_canonical (ht : t.isFinite = true)
    (h : t.toJson.canonical = u.toJson.canonical) : t = u := by
  rw [canonical_toJson, if_pos ht, canonical_toJson] at h
  split at h
  · exact toJson_inj h
  · exact absurd h t.toJson_ne_null

end Terms

theorem Json.canonical_ofOption (s : Option String) :
    (Json.ofOption s).canonical = Json.ofOption s := by
  cases s <;> rw [ofOption, canonical]

theorem Json.ofOption_inj {s s' : Option String} (h : Json.ofOption s = Json.ofOption s') :
    s = s' := by
  cases s <;> cases s' <;> cases h <;> rfl

/-- What the values of items tell of each item, they tell of the items in order. -/
theorem Json.map_eq_of_canonical {α β : Type} {f : α → Json} {g : α → β} {xs ys : List α}
    (hxs : ∀ x ∈ xs, ∀ y, (f x).canonical = (f y).canonical → g x = g y)
    (h : (xs.map f).map canonical = (ys.map f).map canonical) : xs.map g = ys.map g := by
  induction xs generalizing ys with
  | nil =>
      cases ys with
      | nil => rfl
      | cons y ys => cases h
  | cons x xs ih =>
      cases ys with
      | nil => cases h
      | cons y ys =>
          obtain ⟨hx, htail⟩ := List.cons.inj h
          rw [List.map_cons, List.map_cons, hxs x List.mem_cons_self y hx,
            ih (fun x hx => hxs x (List.mem_cons_of_mem _ hx)) htail]

/-- A literal with finite numbers says what any literal with the same values says. -/
theorem Literal.content_eq_of_canonical {l m : Literal} (hl : l.isFinite = true)
    (h : l.toJson.canonical = m.toJson.canonical) : l.content = m.content := by
  simp only [toJson, canonical, List.map_cons, List.map_nil, Json.canonical_ofOption,
    Json.object.injEq, List.cons.injEq, Prod.mk.injEq, true_and, and_true, Json.array.injEq,
    Json.bool.injEq, Json.str.injEq] at h
  obtain ⟨harguments, hmodal, hnegated, hservice, htable⟩ := h
  have hitems : l.arguments.map (·.item) = m.arguments.map (·.item) :=
    Json.map_eq_of_canonical
      (fun a ha _ hab => Term.eq_of_canonical (List.all_eq_true.1 hl a ha) hab) harguments
  have hname : l.table = m.table := by
    rw [TableName.mk.injEq]
    exact ⟨Json.ofOption_inj hmodal, Json.ofOption_inj hservice, htable⟩
  rw [content, content, hname, hnegated, hitems]

theorem Formula.written_eq_of_canonical {f g : Formula} (hf : f.isFinite = true)
    (h : f.toJson.canonical = g.toJson.canonical) : f.written = g.written := by
  have hliteral : ∀ l ∈ f.literals, ∀ m : Literal, l.toJson.canonical = m.toJson.canonical →
      l.content = m.content := fun l hl _ hlm =>
    Literal.content_eq_of_canonical (List.all_eq_true.1 hf l hl) hlm
  cases f with
  | literal l =>
      cases g with
      | literal m =>
          simp only [toJson, canonical, List.map_cons, List.map_nil, Json.object.injEq,
            List.cons.injEq, Prod.mk.injEq, true_and, and_true] at h
          rw [written, written, hliteral l (List.mem_singleton_self l) m h]
      | rule r => simp [toJson, canonical] at h
  | rule r =>
      cases g with
      | literal m => simp [toJson, canonical] at h
      | rule q =>
          simp only [toJson, canonical, List.map_cons, List.map_nil, Json.object.injEq,
            List.cons.injEq, Prod.mk.injEq, true_and, and_true, Json.array.injEq] at h
          obtain ⟨hbody, hheads⟩ := h
          rw [written, written,
            Json.map_eq_of_canonical (fun l hl => hliteral l (List.mem_append_left _ hl)) hheads,
            Json.map_eq_of_canonical (fun l hl => hliteral l (List.mem_append_right _ hl)) hbody]

/-- Policies with the same JSON text have as many formulas, which say the same in the same order, if
the numbers of one of them are finite. -/
theorem Formula.render_json_inj {fs gs : List Formula} (hfs : ∀ f ∈ fs, f.isFinite = true)
    (h : render fs .json = render gs .json) :
    fs.length = gs.length ∧ fs.map written = gs.map written ∧ (fs == gs) = true := by
  have htext : (Json.array (fs.map (·.toJson))).text .indented =
      (Json.array (gs.map (·.toJson))).text .indented := by
    have hchars := congrArg String.toList h
    rw [render, render, String.toList_append, String.toList_append] at hchars
    exact String.toList_inj.1 (List.append_cancel_right hchars)
  have hvalues := Json.canonical_eq_of_text htext
  rw [canonical, canonical, Json.array.injEq] at hvalues
  have hwritten : fs.map written = gs.map written :=
    Json.map_eq_of_canonical (fun f hf _ => written_eq_of_canonical (hfs f hf)) hvalues
  have hlength := congrArg List.length hwritten
  rw [List.length_map, List.length_map] at hlength
  exact ⟨hlength, hwritten, list_beq_of_written hwritten⟩

/-- Two texts are compiled to policies that pass a test. -/
theorem exists_compiled_pair (a b : String) (test : List Formula → List Formula → Bool)
    (h : (do
      let fs ← (compile {} (.ofText "a" a)).toOption
      let gs ← (compile {} (.ofText "b" b)).toOption
      return test fs gs) = some true) :
    ∃ fs gs, compile {} (.ofText "a" a) = .ok fs ∧ compile {} (.ofText "b" b) = .ok gs ∧
      test fs gs = true := by
  obtain ⟨fs, hfs, hrest⟩ := Option.bind_eq_some_iff.1 h
  obtain ⟨gs, hgs, htest⟩ := Option.bind_eq_some_iff.1 hrest
  exact ⟨fs, gs, Compile.eq_ok_of_toOption hfs, Compile.eq_ok_of_toOption hgs,
    Option.some.inj htest⟩

namespace Formula

/-- A rule on one line. -/
def oneLine : String := "p(x) :- not s:q(x, \"\\n\", 2.5)"

/-- The same rule on two lines, with another word for negation, other quotes and another numeral. -/
def twoLines : String := "p(x) :- // r\n! s:q(x, '\\n', 25e-1)."

theorem render_json_inj_layout :
    ∃ fs gs, compile {} (.ofText "a" oneLine) = .ok fs ∧
      compile {} (.ofText "b" twoLines) = .ok gs ∧
      (∀ f ∈ fs, f.isFinite = true) ∧ render fs .json = render gs .json ∧
      fs.length = gs.length ∧ fs.map written = gs.map written ∧ (fs == gs) = true := by
  obtain ⟨fs, gs, hfs, hgs, htest⟩ := exists_compiled_pair oneLine twoLines
    (fun fs gs => fs.all (·.isFinite) && render fs .json = render gs .json) (by decide +kernel)
  rw [Bool.and_eq_true, List.all_eq_true, decide_eq_true_eq] at htest
  obtain ⟨hfinite, hjson⟩ := htest
  exact ⟨fs, gs, hfs, hgs, hfinite, hjson, render_json_inj hfinite hjson⟩

/-- The sign of an infinite number is lost in the JSON text, but not in the written form. -/
theorem render_json_infinite :
    ∃ fs gs, compile {} (.ofText "a" "p(1e999)") = .ok fs ∧
      compile {} (.ofText "b" "p(-1e999)") = .ok gs ∧ render fs .json = render gs .json ∧
      render fs .text ≠ render gs .text ∧ fs.map written ≠ gs.map written ∧ (fs == gs) = false := by
  obtain ⟨fs, gs, hfs, hgs, htest⟩ := exists_compiled_pair "p(1e999)" "p(-1e999)"
    (fun fs gs => decide (render fs .json = render gs .json) &&
      (render fs .text ≠ render gs .text && !(fs == gs)))
    (by decide +kernel)
  simp only [Bool.and_eq_true, decide_eq_true_eq, Bool.not_eq_true'] at htest
  obtain ⟨hjson, htext, hdifferent⟩ := htest
  refine ⟨fs, gs, hfs, hgs, hjson, htext, fun hwritten => ?_, hdifferent⟩
  exact Bool.false_ne_true (hdifferent.symm.trans (list_beq_of_written hwritten))

end Formula

end DatalogPolicy
