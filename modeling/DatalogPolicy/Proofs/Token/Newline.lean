import DatalogPolicy.Proofs.Token.Layout

/-!
# Scanning up to a newline

A newline ends every word that stands before it: of the words with a newline in them,
blanks are skipped, and quoted texts go on over it only when they are still open. So a
text that is scanned without unknown tokens is scanned alike in front of a newline and more
text, and what follows the newline is scanned as it is alone, in its place.
-/

namespace DatalogPolicy

/-- The span that much further on. -/
def Span.shift (k : Nat) (s : Span) : Span := ⟨s.start + k, s.stop + k⟩

/-- The lexeme that much further on. -/
def Lexeme.shift (k : Nat) (x : Lexeme) : Lexeme := { x with span := x.span.shift k }

/-- The token that much further on. -/
def Token.shift (k : Nat) (t : Token) : Token := { t with span := t.span.shift k }

namespace TextClass

variable {cls : TextClass} {word tail : List Char}

/-- A word other than blanks is supplied in front of a newline as it is without. -/
theorem Supplies.append_newline (h : Supplies cls word tail) (hcls : cls ≠ .blank)
    (more : List Char) : Supplies cls word (tail ++ '\n' :: more) := by
  rw [← List.append_nil tail] at h
  refine h.replace_end hcls ?_ (fun _ c hc => (Option.some.inj hc).symm) fun _ _ => nofun
  rintro c ⟨⟩
  rfl

end TextClass

namespace Token

open TextClass
open Text (byteLength byteLength_append)

variable {gap cs more : List Char} {offset k : Nat}

/-- Blanks at the front of a text are skipped. -/
theorem scanFrom_blanks (hgap : ∀ c ∈ gap, isBlank c = true) (offset : Nat) (cs : List Char) :
    scanFrom offset (gap ++ cs) = scanFrom (offset + byteLength gap) cs := by
  have hrun (lead : List Char) (hlead : ∀ c ∈ lead, isBlank c = true) (offset : Nat) :
      scanFrom offset (lead ++ cs.dropWhile isBlank) =
        scanFrom (offset + byteLength lead) (cs.dropWhile isBlank) := by
    by_cases hne : lead = []
    · rw [hne]
      rfl
    · have hnext := List.head?_dropWhile_not isBlank cs
      refine scanFrom_append (reads_blank hne hlead fun d hd => ?_) offset
      rwa [hd] at hnext
  have hmore : ∀ c ∈ cs.takeWhile isBlank, isBlank c = true :=
    List.all_eq_true.1 List.all_takeWhile
  rw [← List.takeWhile_append_dropWhile (p := isBlank) (l := cs), ← List.append_assoc,
    hrun _ (List.forall_mem_append.2 ⟨hgap, hmore⟩), hrun _ hmore, byteLength_append, Nat.add_assoc]

/-- A text without unknown tokens is scanned alike in front of a newline, and what follows the
newline is scanned as it is alone. -/
theorem scanFrom_newline (hknown : ∀ t ∈ scanFrom offset cs, t.kind ≠ .unknown) (more : List Char) :
    ∃ tokens, scanFrom offset cs = tokens ++
        [⟨.ending, ⟨offset + byteLength cs, offset + byteLength cs⟩, ""⟩] ∧
      scanFrom offset (cs ++ '\n' :: more) =
        tokens ++ scanFrom (offset + byteLength cs + 1) more := by
  induction cs using words_induction generalizing offset with
  | nil =>
      refine ⟨[], by rw [scanFrom]; rfl, ?_⟩
      have hnewline : ∀ c ∈ ['\n'], isBlank c = true := List.forall_mem_singleton.2 rfl
      exact scanFrom_blanks hnewline offset more
  | @read cls word tail hread ih =>
      have hsupplies := hread.supplies
      rw [scanFrom_append hread] at hknown ⊢
      obtain ⟨tokens, hshort, hlong⟩ := ih (List.forall_mem_append.1 hknown).2
      refine ⟨supplied cls offset word ++ tokens, ?_, ?_⟩
      · rw [hshort, byteLength_append, Nat.add_assoc, List.append_assoc]
      · rw [List.append_assoc, byteLength_append, ← Nat.add_assoc, List.append_assoc, ← hlong]
        by_cases hblank : cls = .blank
        · subst hblank
          exact scanFrom_blanks (isBlank_of_supplies hsupplies) offset _
        · have hlonger := reads_iff_supplies.2 (hsupplies.append_newline hblank more)
          exact scanFrom_append hlonger offset
  | unknown _ hscan _ =>
      rw [hscan] at hknown
      exact absurd rfl (List.forall_mem_cons.1 hknown).1

/-- A text further on is scanned into the same tokens, all that much further on. -/
theorem scanFrom_shift (offset k : Nat) (cs : List Char) :
    scanFrom (offset + k) cs = (scanFrom offset cs).map (shift k) := by
  induction cs using words_induction generalizing offset with
  | nil =>
      rw [scanFrom, scanFrom]
      rfl
  | @read cls word tail hread ih =>
      have hword : supplied cls (offset + k) word = (supplied cls offset word).map (shift k) := by
        cases cls <;> simp only [supplied, kind?, Option.map_some, Option.map_none,
          Option.toList_some, Option.toList_none, List.map_cons, List.map_nil, shift, Span.shift,
          Nat.add_right_comm]
      rw [scanFrom_append hread, scanFrom_append hread, List.map_append, hword, ← ih,
        Nat.add_right_comm]
  | @unknown word tail _ hscan ih =>
      rw [hscan, hscan, List.map_cons, ← ih, Nat.add_right_comm]
      rfl

theorem lexeme?_shift (k : Nat) (t : Token) :
    (t.shift k).lexeme? = t.lexeme?.map (Lexeme.shift k) := by
  obtain ⟨kind, span, text⟩ := t
  cases kind <;> rfl

/-- Texts without unknown tokens, with a newline between them, are scanned into the lexemes of one
and, further on, those of the other. -/
theorem scan_newline (hcs : ∀ t ∈ scan cs, t.kind ≠ .unknown)
    (hmore : ∀ t ∈ scan more, t.kind ≠ .unknown) :
    (∀ t ∈ scan (cs ++ '\n' :: more), t.kind ≠ .unknown) ∧
      (scan (cs ++ '\n' :: more)).filterMap (·.lexeme?) = (scan cs).filterMap (·.lexeme?) ++
        ((scan more).filterMap (·.lexeme?)).map (Lexeme.shift (byteLength cs + 1)) := by
  obtain ⟨tokens, hfirst, hall⟩ := scanFrom_newline hcs more
  have hsecond : scanFrom (0 + byteLength cs + 1) more =
      (scan more).map (shift (byteLength cs + 1)) :=
    (congrArg (scanFrom · more) (Nat.add_assoc ..)).trans (scanFrom_shift 0 _ more)
  rw [hsecond] at hall
  have hfirst : scan cs = _ := hfirst
  have hall : scan (cs ++ '\n' :: more) = _ := hall
  rw [hfirst] at hcs
  rw [hall, hfirst]
  constructor
  · refine List.forall_mem_append.2 ⟨(List.forall_mem_append.1 hcs).1, ?_⟩
    exact List.forall_mem_map.2 hmore
  · simp only [List.filterMap_append, List.filterMap_map, List.map_filterMap, Function.comp_def,
      lexeme?_shift]
    rw [show ([⟨.ending, _, ""⟩] : List Token).filterMap (·.lexeme?) = [] from rfl,
      List.append_nil]

end Token

end DatalogPolicy
