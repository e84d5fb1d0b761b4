import DatalogPolicy.Proofs.Surface.Completeness

/-!
# What the parser says of the texts that it rejects

A parser in any state can still be led to the end of a policy. What it has read when it
stops is therefore the beginning of a policy, and each terminal that it expects goes on
with it; the lexeme at which it stops does not.
-/

namespace DatalogPolicy.Surface

section Running

variable {s s' : State} {xs ys : List Lexeme} {x : Lexeme} {failure : Failure}

/-- Some lexemes lead from one state to another, whatever statements they complete. -/
def State.Reaches (s : State) (xs : List Lexeme) (s' : State) : Prop :=
  ∃ done, ∀ rest, s.run (xs ++ rest) = (s'.run rest).map (done ++ ·)

/-- Where and why a state goes no further. -/
inductive State.Stops (s : State) : List Lexeme → Failure → Prop
  | unexpected {x rest} (h : s.next? x = none) :
      Stops s (x :: rest) ⟨some x, s.expected (some x.terminal)⟩
  | unfinished (h : s.finish? = none) : Stops s [] ⟨none, s.expected none⟩

theorem State.Reaches.refl : s.Reaches [] s := by
  refine ⟨[], fun rest => ?_⟩
  rw [List.nil_append]
  cases s.run rest <;> rfl

theorem State.Reaches.trans {s'' : State} (h : s.Reaches xs s') (h' : s'.Reaches ys s'') :
    s.Reaches (xs ++ ys) s'' := by
  obtain ⟨done, hrun⟩ := h
  obtain ⟨done', hrun'⟩ := h'
  refine ⟨done ++ done', fun rest => ?_⟩
  rw [List.append_assoc, hrun, hrun']
  cases s''.run rest <;> simp only [Except.map, List.append_assoc]

theorem State.Reaches.next {done : Option Statement} (h : s.next? x = some (done, s')) :
    s.Reaches [x] s' := by
  refine ⟨done.toList, fun rest => ?_⟩
  rw [List.singleton_append, State.run, h]

/-- A run that fails has read some lexemes before it stops. -/
theorem State.exists_stops (h : s.run xs = .error failure) :
    ∃ before rest s', xs = before ++ rest ∧ s.Reaches before s' ∧ s'.Stops rest failure := by
  induction xs generalizing s with
  | nil =>
      refine ⟨[], [], s, rfl, State.Reaches.refl, ?_⟩
      rw [State.run] at h
      split at h <;> cases h
      next hfinish => exact .unfinished hfinish
  | cons x xs ih =>
      rw [State.run] at h
      split at h
      · next done s' hnext =>
          cases hrest : s'.run xs with
          | ok sts =>
              rw [hrest] at h
              cases h
          | error e =>
              rw [hrest] at h
              cases h
              obtain ⟨before, rest, s'', rfl, hreaches, hstops⟩ := ih hrest
              exact ⟨x :: before, rest, s'', rfl, (State.Reaches.next hnext).trans hreaches, hstops⟩
      · next hnext =>
          cases h
          exact ⟨[], x :: xs, s, rfl, State.Reaches.refl, .unexpected hnext⟩

end Running

section Completing

/-- A lexeme with no text of its own, for a place where only the terminal matters. -/
def blankLexeme (t : Terminal) : Lexeme := ⟨t, ⟨0, 0⟩, ""⟩

/-- The argument list that is being read can be closed. -/
theorem exists_closed (before : Before) (lead : Lead) (relation : Relation) (read : List Param)
    (last : ParamState) :
    ∃ ys a, State.Passes ⟨before, .params lead relation read last⟩ ys
      ⟨before, .closed lead a⟩ := by
  have hclose (p : Param) (last : ParamState) (h : last.param? = some p) :
      State.Passes ⟨before, .params lead relation read last⟩ [blankLexeme .closeParen]
        ⟨before, .closed lead ⟨relation, read ++ [p], some (blankLexeme .closeParen)⟩⟩ :=
    Grammar.MoreParams.passes .nil h rfl
  cases last with
  | first => exact ⟨[blankLexeme .closeParen], _, .next rfl⟩
  | reference lexeme => exact ⟨_, _, hclose _ _ rfl⟩
  | whole param => exact ⟨_, _, hclose _ _ rfl⟩
  | next =>
      exact ⟨[blankLexeme .identifier] ++ _, _,
        (State.Passes.next rfl).trans (hclose _ (.reference (blankLexeme .identifier)) rfl)⟩
  | value column =>
      exact ⟨[blankLexeme .identifier] ++ _, _,
        (State.Passes.next rfl).trans
          (hclose _ (.whole (.named column (blankLexeme .identifier))) rfl)⟩

/-- The literal that is being read can be ended. -/
theorem exists_literal (before : Before) (r : Reading) :
    ∃ ys r' l, r'.literal? = some l ∧ State.Passes ⟨before, r⟩ ys ⟨before, r'⟩ := by
  have hatom (r : Reading) (lead : Lead) (a : Atom) (h : r.atom? = some (lead, a)) :
      ∃ ys r' l, r'.literal? = some l ∧ State.Passes ⟨before, r⟩ ys ⟨before, r'⟩ := by
    obtain ⟨n, m⟩ := lead
    cases m with
    | none =>
        refine ⟨[], r, ⟨n, none, a⟩, ?_, fun _ => rfl⟩
        cases r <;> cases h <;> rfl
    | some m =>
        exact ⟨[blankLexeme .closeBracket], _, _, rfl,
          .next (Grammar.next?_closeBracket h rfl)⟩
  have hafter {r r' : Reading} (x : Lexeme) (lead : Lead) (a : Atom) (h : r.next? x = some r')
      (ha : r'.atom? = some (lead, a)) :
      ∃ ys r' l, r'.literal? = some l ∧ State.Passes ⟨before, r⟩ ys ⟨before, r'⟩ := by
    obtain ⟨ys, r'', l, hl, hpasses⟩ := hatom r' lead a ha
    exact ⟨[x] ++ ys, r'', l, hl, (State.Passes.next h).trans hpasses⟩
  cases r with
  | opening | negated | bracket | colon => exact hafter (blankLexeme .identifier) _ _ rfl rfl
  | name | pieces | signed | closed => exact hatom _ _ _ rfl
  | params lead relation read last =>
      obtain ⟨ys, a, hclosed⟩ := exists_closed before lead relation read last
      obtain ⟨zs, r', l, hl, hpasses⟩ := hatom (.closed lead a) lead a rfl
      exact ⟨ys ++ zs, r', l, hl, hclosed.trans hpasses⟩
  | whole l => exact ⟨[], .whole l, l, rfl, fun _ => rfl⟩

/-- From every state some lexemes lead to the end of a policy. -/
theorem State.exists_run_eq_ok (s : State) : ∃ ys sts, s.run ys = .ok sts := by
  obtain ⟨before, r⟩ := s
  obtain ⟨ys, r', l, hl, hpasses⟩ := exists_literal before r
  -- behind heads an arrow and one more literal make a rule
  have hend : ∃ zs sts, State.run ⟨before, r'⟩ zs = .ok sts := by
    cases before with
    | nothing => exact ⟨[], _, run_complete hl rfl rfl⟩
    | implies => exact ⟨[], _, run_complete hl rfl rfl⟩
    | body => exact ⟨[], _, run_complete hl rfl rfl⟩
    | heads head heads =>
        have harrow : State.Passes ⟨.heads head heads, r'⟩ [blankLexeme .implies]
            { before := .implies head (heads ++ [l]) } := .separate hl (by decide) rfl
        have hbody : State.Passes { before := .implies head (heads ++ [l]) }
            [blankLexeme .identifier]
            ⟨.implies head (heads ++ [l]), .name {} (blankLexeme .identifier)⟩ := .next rfl
        exact ⟨[blankLexeme .implies] ++ [blankLexeme .identifier] ++ [], _,
          (harrow.trans hbody []).trans (run_complete rfl rfl rfl)⟩
  obtain ⟨zs, sts, hrun⟩ := hend
  exact ⟨ys ++ zs, sts, (hpasses zs).trans hrun⟩

end Completing

section Expecting

variable {s : State} {r : Reading} {x : Lexeme} {found : Option Terminal}

/-- A literal goes on with each of its continuations. -/
theorem Reading.isSome_next? (h : x.terminal ∈ r.continuations) : (r.next? x).isSome := by
  obtain ⟨terminal, span, text⟩ := x
  cases r with
  | name lead first =>
      obtain ⟨n, m⟩ := lead
      cases m <;> cases terminal <;> first | rfl | simp [Reading.continuations] at h
  | params lead relation read last =>
      cases last <;> cases terminal <;>
        first | rfl | simp [Reading.continuations, ParamState.continuations] at h
  | opening | negated | bracket | colon | pieces | signed | closed | whole =>
      cases terminal <;> first | rfl | simp [Reading.continuations] at h

/-- Each follower of a literal goes on with its statement, or with the text behind it. -/
theorem State.isSome_next?_of_follower (h : x.terminal ∈ s.followers) : (s.next? x).isSome := by
  obtain ⟨before, r⟩ := s
  unfold State.followers at h
  split at h
  · next n m a hatom =>
      rw [State.next?, Grammar.next?_closeBracket hatom (List.mem_singleton.1 h)]
      rfl
  · have hfollows (l : Literal) (hl : r.literal? = some l)
        (hx : x.terminal ∈ Reading.followsLiteral)
        (hafter : (State.separate? l x.terminal before).isSome ∨
          (State.statement? l before).isSome ∧ (State.restart? x).isSome) :
        (State.next? ⟨before, r⟩ x).isSome := by
      simp only [State.next?, Reading.next?_eq_none hl hx, hl, Option.bind_some]
      cases hseparate : State.separate? l x.terminal before with
      | some before' => rfl
      | none =>
          obtain ⟨hst, hrestart⟩ := hafter.resolve_left (by rw [hseparate]; decide)
          obtain ⟨st, hst⟩ := Option.isSome_iff_exists.1 hst
          rw [hst, Option.bind_some, Option.isSome_map]
          exact hrestart
    obtain ⟨terminal, span, text⟩ := x
    cases hl : r.literal? with
    | none =>
        rw [hl] at h
        cases h
    | some l =>
        rw [hl] at h
        apply hfollows l hl
        all_goals
          cases before <;> cases terminal <;>
            first
              | simp at h; done
              | simp [Reading.followsLiteral, State.separate?, State.statement?, State.restart?,
                  Reading.next?]

/-- A state goes on with each terminal that it expects. -/
theorem State.isSome_next?_of_expected (h : x.terminal ∈ s.expected found) :
    (s.next? x).isSome := by
  obtain ⟨-, hx⟩ := List.mem_filter.1 h
  rcases Bool.or_eq_true_iff.1 hx with hfollows | hcontinues
  · exact isSome_next?_of_follower (of_decide_eq_true hfollows)
  · have hnext := Reading.isSome_next? (of_decide_eq_true (Bool.and_eq_true_iff.1 hcontinues).2)
    obtain ⟨r, hr⟩ := Option.isSome_iff_exists.1 hnext
    rw [State.next?, hr]
    rfl

/-- A state expects something, whatever it has found. -/
theorem State.expected_ne_nil (s : State) (found : Option Terminal) : s.expected found ≠ [] := by
  have hmem (t : Terminal) (h : t ∈ s.followers ∨
      s.reading.isLeftBy found = false ∧ t ∈ s.reading.continuations) :
      s.expected found ≠ [] := by
    apply List.ne_nil_of_mem (a := t)
    refine List.mem_filter.2 ⟨by cases t <;> decide, ?_⟩
    rcases h with h | ⟨hleft, h⟩
    · simp only [h, decide_true, Bool.true_or]
    · simp only [h, hleft, Bool.not_false, decide_true, Bool.and_true, Bool.or_true]
  obtain ⟨before, r⟩ := s
  -- an atom that can end is followed by a bracket if one is open, and else by a comma
  have hends (lead : Lead) (a : Atom) (ha : r.atom? = some (lead, a)) :
      State.expected ⟨before, r⟩ found ≠ [] := by
    obtain ⟨n, m⟩ := lead
    cases m with
    | some m =>
        refine hmem .closeBracket (.inl ?_)
        rw [State.followers, ha]
        exact List.mem_singleton_self _
    | none =>
        have hl : r.literal? = some ⟨n, none, a⟩ := by
          cases r <;> cases ha <;> rfl
        refine hmem .comma (.inl ?_)
        simp only [State.followers, ha, hl]
        cases before <;> simp
  cases r with
  | opening | negated | bracket | colon =>
      exact hmem .identifier (.inr ⟨rfl, by simp [Reading.continuations]⟩)
  | params lead relation read last =>
      cases last with
      | first | reference | whole =>
          exact hmem .closeParen
            (.inr ⟨rfl, by simp [Reading.continuations, ParamState.continuations]⟩)
      | next | value =>
          exact hmem .identifier
            (.inr ⟨rfl, by simp [Reading.continuations, ParamState.continuations]⟩)
  | name | pieces | signed | closed => exact hends _ _ rfl
  | whole l =>
      refine hmem .comma (.inl ?_)
      cases before <;> simp [State.followers, Reading.atom?, Reading.literal?]

end Expecting

namespace Grammar

variable {xs : List Lexeme} {x : Lexeme} {tokens : List Token}

/-- Some lexemes are the beginning of a policy. -/
def Begins (xs : List Lexeme) : Prop := ∃ ys program, Program (xs ++ ys) program

/-- There are terminals, each of which goes on with the beginning of a policy. -/
structure GoesOn (xs : List Lexeme) (terminals : List Terminal) : Prop where
  ne : terminals ≠ []
  begins : ∀ x : Lexeme, x.terminal ∈ terminals → Begins (xs ++ [x])

/-- How tokens that are no policy are reported: by the first that cannot stand where it does, or,
where all of them begin a policy, by their end. -/
inductive Reported (source : Source) (tokens : List Token) : PolicyError → Prop
  | unexpected {before x rest expected}
      (htokens : tokens.filter sees = (before ++ x :: rest).map token)
      (hbefore : Begins before) (hx : ¬ Begins (before ++ [x])) (hexpected : GoesOn before expected) :
      Reported source tokens (.grammar (.unexpected x.text expected) (source.site x.span))
  | unfinished {xs ys program expected} (htokens : tokens.filter sees = xs.map token)
      (hmore : Program (xs ++ ys) program) (hne : ys ≠ []) (hxs : ∀ program, ¬ Program xs program)
      (hexpected : GoesOn xs expected) :
      Reported source tokens (.grammar (.unfinished expected)
        (source.site ⟨Text.byteLength source.chars, Text.byteLength source.chars⟩))

/-- What leads to a state is the beginning of a policy. -/
theorem begins_of_reaches {s : State} (h : State.Reaches {} xs s) : Begins xs := by
  obtain ⟨done, hrun⟩ := h
  obtain ⟨ys, sts, hys⟩ := s.exists_run_eq_ok
  refine ⟨ys, done ++ sts, parse_eq_ok_iff.1 ?_⟩
  rw [parse, hrun, hys]
  rfl

theorem begins_append_iff {s : State} (h : State.Reaches {} xs s) :
    Begins (xs ++ [x]) ↔ (s.next? x).isSome := by
  constructor
  · rintro ⟨ys, program, hprogram⟩
    obtain ⟨done, hrun⟩ := h
    have hall := parse_eq_ok_iff.2 hprogram
    rw [parse, List.append_assoc, hrun, List.singleton_append, State.run] at hall
    cases hnext : s.next? x with
    | none =>
        rw [hnext] at hall
        cases hall
    | some => rfl
  · intro hnext
    obtain ⟨⟨done, s'⟩, hnext⟩ := Option.isSome_iff_exists.1 hnext
    exact begins_of_reaches (State.Reaches.trans h (.next hnext))

/-- Terminals that a state expects go on with what leads to it. -/
theorem goesOn_expected {s : State} (h : State.Reaches {} xs s) (found : Option Terminal) :
    GoesOn xs (s.expected found) :=
  ⟨s.expected_ne_nil found, fun _ hx => (begins_append_iff h).2 (State.isSome_next?_of_expected hx)⟩

/-- Tokens without unknown text that are rejected are reported by the first of them that cannot
stand where it does, or by their end, with terminals that could stand there. -/
theorem parseTokens_reported {source : Source} {e : PolicyError}
    (hknown : ∀ t ∈ tokens, t.kind ≠ .unknown) (herror : source.parseTokens tokens = .error e) :
    Reported source tokens e := by
  have htokens := filter_sees hknown
  rw [Source.parseTokens, parse] at herror
  generalize tokens.filterMap (·.lexeme?) = xs at htokens herror
  cases hrun : State.run {} xs with
  | ok sts =>
      rw [hrun] at herror
      cases herror
  | error failure =>
      rw [hrun] at herror
      cases herror
      obtain ⟨before, rest, s, rfl, hreaches, hstops⟩ := State.exists_stops hrun
      cases hstops with
      | unexpected hnext =>
          refine .unexpected htokens (begins_of_reaches hreaches) ?_ (goesOn_expected hreaches _)
          rw [begins_append_iff hreaches, hnext]
          exact Bool.false_ne_true
      | unfinished hfinish =>
          rw [List.append_nil] at htokens hrun
          have hxs (program : List Surface.Statement) : ¬ Program before program := by
            intro hprogram
            rw [hprogram.run] at hrun
            cases hrun
          obtain ⟨ys, program, hmore⟩ := begins_of_reaches hreaches
          refine .unfinished htokens hmore ?_ hxs (goesOn_expected hreaches _)
          rintro rfl
          rw [List.append_nil] at hmore
          exact hxs _ hmore

/-- The tokens of a table with a sign, a comment, and a bracket that closes nothing. -/
def sampleRejected : List Token :=
  [⟨.terminal .identifier, ⟨0, 1⟩, "p"⟩, ⟨.terminal .plus, ⟨1, 2⟩, "+"⟩,
    ⟨.comment, ⟨3, 5⟩, "//"⟩, ⟨.terminal .closeBracket, ⟨6, 7⟩, "]"⟩, ⟨.ending, ⟨7, 7⟩, ""⟩]

/-- The error for `sampleRejected`, which does not list the parenthesis that the bracket hides. -/
def sampleRejection (source : Source) : PolicyError :=
  .grammar (.unexpected "]" [.identifier, .negation, .implies, .comma, .semicolon, .period])
    (source.site ⟨6, 7⟩)

theorem reported_sampleRejected : (∀ t ∈ sampleRejected, t.kind ≠ .unknown) ∧
    (Source.ofText "" "p+ //\n]").parseTokens sampleRejected =
      .error (sampleRejection (.ofText "" "p+ //\n]")) ∧
    Reported (.ofText "" "p+ //\n]") sampleRejected
      (sampleRejection (.ofText "" "p+ //\n]")) := by
  have hknown : ∀ t ∈ sampleRejected, t.kind ≠ .unknown := by decide
  exact ⟨hknown, rfl, parseTokens_reported hknown rfl⟩

end Grammar

end DatalogPolicy.Surface
