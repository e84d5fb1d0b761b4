import DatalogPolicy.Proofs.Token.Insertion

/-!
# Excerpts of a text

The part of a text from the first byte of one lexeme to the last byte of another is scanned
alone into the lexemes between them. What stands before a lexeme has no part in its match,
and a match is the longest without what follows it, unless this is the point that
makes a name of a word for negation.
-/

namespace DatalogPolicy

open TextClass

/-- A name that is spelled like a word for negation. -/
def Lexeme.IsNegationName (x : Lexeme) : Prop :=
  x.terminal = .identifier ∧ IsNegationWord x.text.toList

instance (x : Lexeme) : Decidable x.IsNegationName :=
  inferInstanceAs (Decidable (_ ∧ _))

namespace Text

variable {cs ds : List Char}

/-- Behind the bytes of the first character are those of the rest. -/
theorem exists_byteLength_cons (c : Char) (rest : List Char) :
    ∃ n, byteLength (c :: rest) = n + 1 ∧ n + 1 - c.utf8Size = byteLength rest := by
  have hlength : byteLength (c :: rest) = c.utf8Size + byteLength rest := rfl
  obtain ⟨n, hn⟩ := Nat.exists_eq_add_of_lt (byteLength_pos (List.cons_ne_nil c rest))
  rw [Nat.zero_add] at hn
  exact ⟨n, hn, by rw [← hn, hlength, Nat.add_sub_cancel_left]⟩

theorem dropBytes_append : dropBytes (byteLength cs) (cs ++ ds) = ds := by
  induction cs with
  | nil =>
      show dropBytes 0 ds = ds
      rw [dropBytes]
  | cons c rest ih =>
      obtain ⟨n, hn, hrest⟩ := exists_byteLength_cons c rest
      rw [hn, List.cons_append, dropBytes, hrest, ih]

theorem takeBytes_append : takeBytes (byteLength cs) (cs ++ ds) = cs := by
  induction cs with
  | nil =>
      show takeBytes 0 ds = []
      rw [takeBytes]
  | cons c rest ih =>
      obtain ⟨n, hn, hrest⟩ := exists_byteLength_cons c rest
      rw [hn, List.cons_append, takeBytes, hrest, ih]

/-- The slice between the end of one part of a text and the end of the next is this part. -/
theorem slice_append {front text back : List Char} :
    slice ⟨byteLength front, byteLength (front ++ text)⟩ (front ++ text ++ back) = text := by
  rw [slice, List.append_assoc, dropBytes_append, byteLength_append, Nat.add_sub_cancel_left,
    takeBytes_append]

end Text

namespace Token

open Text (byteLength byteLength_append)

variable {cs word : List Char} {cls : TextClass} {offset : Nat} {x : Lexeme}
  {xs ys zs : List Lexeme}

/-- The lexemes among some tokens. -/
abbrev lexemes (tokens : List Token) : List Lexeme := tokens.filterMap (·.lexeme?)

/-- A word supplies a lexeme if it is a terminal, and else none. -/
theorem lexemes_supplied (cls : TextClass) (offset : Nat) (word : List Char) :
    lexemes (supplied cls offset word) =
      match cls with
      | .terminal t => [⟨t, ⟨offset, offset + byteLength word⟩, String.ofList word⟩]
      | _ => [] := by
  cases cls <;> rfl

theorem scanFrom_nil (offset : Nat) : scanFrom offset [] = [⟨.ending, ⟨offset, offset⟩, ""⟩] := by
  rw [scanFrom]

/-- From the first byte of a lexeme on a text is scanned into that lexeme and those behind it. -/
theorem exists_drop (hknown : ∀ t ∈ scanFrom offset cs, t.kind ≠ .unknown)
    (h : lexemes (scanFrom offset cs) = xs ++ x :: ys) :
    ∃ front back, cs = front ++ back ∧ x.span.start = offset + byteLength front ∧
      (∀ t ∈ scanFrom (offset + byteLength front) back, t.kind ≠ .unknown) ∧
      lexemes (scanFrom (offset + byteLength front) back) = x :: ys := by
  induction cs using words_induction generalizing offset xs with
  | nil =>
      rw [scanFrom_nil] at h
      exact absurd h.symm (List.append_ne_nil_of_right_ne_nil xs (List.cons_ne_nil x ys))
  | unknown _ hscan _ =>
      rw [hscan] at hknown
      exact absurd rfl (List.forall_mem_cons.1 hknown).1
  | @read cls word tail hread ih =>
      have hwhole := hknown
      have hall := h
      rw [scanFrom_append hread] at hknown h
      rw [lexemes, List.filterMap_append, ← lexemes, lexemes_supplied] at h
      have hbehind {us : List Lexeme}
          (htail : lexemes (scanFrom (offset + byteLength word) tail) = us ++ x :: ys) :
          ∃ front back, word ++ tail = front ++ back ∧ x.span.start = offset + byteLength front ∧
            (∀ t ∈ scanFrom (offset + byteLength front) back, t.kind ≠ .unknown) ∧
            lexemes (scanFrom (offset + byteLength front) back) = x :: ys := by
        obtain ⟨front, back, rfl, hstart, hback, hlexemes⟩ :=
          ih (List.forall_mem_append.1 hknown).2 htail
        rw [Nat.add_assoc, ← byteLength_append] at hstart hback hlexemes
        exact ⟨word ++ front, back, (List.append_assoc ..).symm, hstart, hback, hlexemes⟩
      cases cls with
      | comment | blank => exact hbehind h
      | terminal t =>
          cases xs with
          | nil =>
              obtain ⟨rfl, -⟩ := List.cons.inj h
              exact ⟨[], word ++ tail, rfl, rfl, hwhole, hall⟩
          | cons y xs => exact hbehind (List.cons.inj h).2

/-- A word that is read is the first in front of part of the text behind it, or of none, unless it
loses the point that makes a name of it. -/
theorem scanFrom_front {front back : List Char} (hread : cls.Reads word (front ++ back))
    (hpoint : front = [] → IsNegationWord word → back.head? ≠ some '.')
    (hknown : ∀ t ∈ scanFrom (offset + byteLength word) front, t.kind ≠ .unknown)
    (hlexemes : lexemes (scanFrom (offset + byteLength word) front) = ys) :
    (∀ t ∈ scanFrom offset (word ++ front), t.kind ≠ .unknown) ∧
      lexemes (scanFrom offset (word ++ front)) = lexemes (supplied cls offset word) ++ ys := by
  by_cases hcls : cls = .blank
  · subst hcls
    rw [scanFrom_blanks (isBlank_of_supplies hread.supplies)]
    exact ⟨hknown, hlexemes⟩
  have hsupplies : cls.Supplies word (front ++ []) :=
    hread.supplies.replace_end hcls (fun _ hc => absurd hc (Option.not_mem_none _))
      (fun _ _ hc => absurd hc (Option.not_mem_none _)) hpoint
  rw [List.append_nil] at hsupplies
  rw [scanFrom_append (reads_iff_supplies.2 hsupplies), lexemes, List.filterMap_append, ← lexemes,
    ← lexemes, hlexemes]
  exact ⟨List.forall_mem_append.2 ⟨fun t ht => known_of_mem_supplied ht, hknown⟩, rfl⟩

/-- Up to the last byte of a lexeme a text is scanned into the lexemes up to that one, unless it is
a name that is spelled like a word for negation. -/
theorem exists_take (hknown : ∀ t ∈ scanFrom offset cs, t.kind ≠ .unknown)
    (h : lexemes (scanFrom offset cs) = ys ++ zs) :
    ∃ front back, cs = front ++ back ∧ (front = [] ↔ ys = []) ∧
      (∀ x ∈ ys.getLast?, x.span.stop = offset + byteLength front) ∧
      ((∀ x ∈ ys.getLast?, ¬ x.IsNegationName) →
        (∀ t ∈ scanFrom offset front, t.kind ≠ .unknown) ∧ lexemes (scanFrom offset front) = ys) := by
  have hnil (offset : Nat) : (∀ t ∈ scanFrom offset [], t.kind ≠ .unknown) ∧
      lexemes (scanFrom offset []) = [] := by
    rw [scanFrom_nil]
    exact ⟨List.forall_mem_singleton.2 nofun, rfl⟩
  induction cs using words_induction generalizing offset ys with
  | nil =>
      rw [(hnil offset).2] at h
      obtain ⟨rfl, -⟩ := List.append_eq_nil_iff.1 h.symm
      exact ⟨[], [], rfl, iff_of_true rfl rfl, nofun, fun _ => hnil offset⟩
  | unknown _ hscan _ =>
      rw [hscan] at hknown
      exact absurd rfl (List.forall_mem_cons.1 hknown).1
  | @read cls word tail hread ih =>
      by_cases hys : ys = []
      · subst hys
        exact ⟨[], word ++ tail, rfl, iff_of_true rfl rfl, nofun, fun _ => hnil offset⟩
      rw [scanFrom_append hread] at hknown h
      rw [lexemes, List.filterMap_append, ← lexemes, lexemes_supplied] at h
      have htail := (List.forall_mem_append.1 hknown).2
      have hne (front : List Char) : word ++ front = [] ↔ ys = [] :=
        iff_of_false (List.append_ne_nil_of_left_ne_nil hread.supplies.ne front) hys
      cases cls with
      | comment | blank =>
          obtain ⟨front, back, rfl, hfront, hstop, hscan⟩ := ih htail h
          rw [Nat.add_assoc, ← byteLength_append] at hstop
          refine ⟨word ++ front, back, (List.append_assoc ..).symm, hne front, hstop, fun hlast => ?_⟩
          have hpoint (_ : front = []) (hnegation : IsNegationWord word) :
              back.head? ≠ some '.' := by
            cases hread.supplies.negation hnegation
          exact scanFrom_front hread hpoint (hscan hlast).1 (hscan hlast).2
      | terminal t =>
          obtain ⟨y, ys, rfl⟩ := List.exists_cons_of_ne_nil hys
          obtain ⟨rfl, hmore⟩ := List.cons.inj h
          obtain ⟨front, back, rfl, hfront, hstop, hscan⟩ := ih htail hmore
          rw [Nat.add_assoc, ← byteLength_append] at hstop
          refine ⟨word ++ front, back, (List.append_assoc ..).symm, hne front, fun x hx => ?_,
            fun hlast => ?_⟩
          · cases ys with
            | nil =>
                cases hx
                rw [hfront.2 rfl, List.append_nil]
                rfl
            | cons z ys => exact hstop x hx
          · have hpoint (hnil : front = []) (hnegation : IsNegationWord word) :
                back.head? ≠ some '.' := by
              intro hpoint
              have hname := hread.supplies.negation hnegation
              rw [hnil, List.nil_append, if_pos hpoint] at hname
              rw [hfront.1 hnil] at hlast
              have hword : IsNegationWord (String.ofList word).toList := by
                rwa [String.toList_ofList]
              exact hlast _ rfl ⟨TextClass.terminal.inj hname, hword⟩
            have hrest : ∀ x ∈ ys.getLast?, ¬ x.IsNegationName := by
              cases ys with
              | nil => exact fun x hx => absurd hx (Option.not_mem_none x)
              | cons z ys => exact hlast
            exact scanFrom_front hread hpoint (hscan hrest).1 (hscan hrest).2

/-- Lexemes of a text stand in the part of it from the first byte of the first to the last byte of
the last, whose words are theirs. -/
theorem exists_excerpt {first last : Lexeme} (hknown : ∀ t ∈ scan cs, t.kind ≠ .unknown)
    (h : lexemes (scan cs) = xs ++ (ys ++ zs)) (hfirst : ys.head? = some first)
    (hlast : ys.getLast? = some last) :
    ∃ front text back, cs = front ++ text ++ back ∧ first.span.start = byteLength front ∧
      last.span.stop = byteLength (front ++ text) ∧
      (¬ last.IsNegationName → HasWords text (ys.map wordOf)) := by
  obtain ⟨more, rfl⟩ := List.head?_eq_some_iff.1 hfirst
  obtain ⟨front, rest, rfl, hstart, hrest, hlexemes⟩ := exists_drop hknown h
  rw [List.append_eq, ← List.cons_append] at hlexemes
  obtain ⟨text, back, rfl, -, hstop, hscan⟩ := exists_take hrest hlexemes
  rw [Nat.zero_add] at hstart hstop hscan
  refine ⟨front, text, back, (List.append_assoc ..).symm, hstart, ?_, fun hname => ?_⟩
  · rw [hstop last hlast, byteLength_append]
  · have hend : ∀ x ∈ (first :: more).getLast?, ¬ x.IsNegationName := by
      rw [hlast]
      rintro x ⟨⟩
      exact hname
    obtain ⟨hpart, hwords⟩ := hscan hend
    exact (hasWords_iff _).2 ⟨hpart, congrArg (List.map wordOf) hwords⟩

end Token

end DatalogPolicy
