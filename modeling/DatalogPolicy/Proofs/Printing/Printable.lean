import DatalogPolicy.Formula
import DatalogPolicy.Proofs.Number.Layout
import DatalogPolicy.Proofs.Token.Classes
import DatalogPolicy.Proofs.Token.Scan

/-!
# Printable policies

A policy is printable if its written form can be read back: names are identifiers of the
grammar, the text of a table is made of them, and numbers are finite. The terms and the
names of a printable policy are read as the tokens for which they were written.
-/

namespace DatalogPolicy

open Pattern Token TextClass

/-- An identifier of the grammar. The two words for negation are none. -/
structure IsIdentifier (s : String) : Prop where
  accepted : identifierPattern.Matches s.toList
  ne_not : s ≠ "not"
  ne_upper : s ≠ "NOT"

instance (s : String) : Decidable (IsIdentifier s) :=
  decidable_of_iff (identifierPattern.Matches s.toList ∧ s ≠ "not" ∧ s ≠ "NOT")
    ⟨fun ⟨h, hnot, hupper⟩ => ⟨h, hnot, hupper⟩, fun ⟨h, hnot, hupper⟩ => ⟨h, hnot, hupper⟩⟩

/-- The text of a table: identifiers with colons between them, then at most one sign. -/
structure IsTableText (text : String) (parts : List String) (sign : String) : Prop where
  text_eq : text = ":".intercalate parts ++ sign
  parts_ne : parts ≠ []
  identifier : ∀ part ∈ parts, IsIdentifier part
  sign_mem : sign ∈ ["", "+", "-"]

/-- A table that can be read back. Without a service it is a single identifier with a sign. -/
structure TableName.IsPrintable (t : TableName) : Prop where
  modal : ∀ m ∈ t.modal, IsIdentifier m
  service : ∀ s ∈ t.service, IsIdentifier s
  table : ∃ parts sign, IsTableText t.table parts sign ∧ (t.service = none → parts.length = 1)

/-- A term that can be read back. -/
def Term.IsPrintable : Term → Prop
  | .var x => IsIdentifier x
  | .const (.float x) => x.isFinite = true
  | .const _ => True

/-- A literal that can be read back. -/
structure Literal.IsPrintable (l : Literal) : Prop where
  table : l.table.IsPrintable
  arguments : ∀ a ∈ l.arguments, a.item.IsPrintable

/-- A formula that can be read back. Rules have a body. -/
def Formula.IsPrintable : Formula → Prop
  | .literal l => l.IsPrintable
  | .rule r => r.body ≠ [] ∧ ∀ l ∈ r.literals, l.IsPrintable

section Terms

variable {tail : List Char}

/-- An identifier is read in front of what belongs to no identifier. -/
theorem IsIdentifier.reads {s : String} (h : IsIdentifier s)
    (htail : ∀ d ∈ tail.head?, isNamePart d = false ∧ d ≠ '.' ∧ d ≠ '!') :
    Reads (.terminal .identifier) s.toList tail := by
  refine reads_identifier h.accepted ⟨fun heq => h.ne_not ?_, fun heq => h.ne_upper ?_⟩ htail
  · exact String.toList_inj.1 (heq.trans rfl)
  · exact String.toList_inj.1 (heq.trans rfl)

/-- The terminal that a term is read as. -/
def Term.terminal : Term → Terminal
  | .var _ => .identifier
  | .const (.str _) => .string
  | .const (.int _) => .integer
  | .const (.float _) => .float

/-- The piece of a term. -/
def Term.piece (t : Term) : Piece := (.terminal t.terminal, t.text.toList)

/-- A term is read in front of a comma or a parenthesis. -/
theorem Term.IsPrintable.reads {t : Term} (h : t.IsPrintable)
    (htail : ∀ d ∈ tail.head?, d = ',' ∨ d = ')') :
    Reads (.terminal t.terminal) t.text.toList tail := by
  cases t with
  | var x =>
      apply IsIdentifier.reads h
      intro d hd
      rcases htail d hd with rfl | rfl <;> decide
  | const v =>
      cases v with
      | str s =>
          have htext : (Term.const (.str s)).text.toList =
              '"' :: (s.toList.flatMap Value.quoteChar ++ ['"']) := String.toList_ofList
          rw [htext]
          exact reads_string (items_quote _)
      | int i =>
          apply reads_integer (matches_toString i.toInt)
          intro d hd
          rcases htail d hd with rfl | rfl <;> decide
      | float x =>
          apply reads_float (Binary64.matches_text h)
          intro d hd
          rcases htail d hd with rfl | rfl <;> decide

/-- A term does not begin with a blank. -/
theorem Term.IsPrintable.isBlank_head {t : Term} (h : t.IsPrintable) :
    ∀ d ∈ (t.text.toList ++ tail).head?, isBlank d = false := by
  cases t with
  | var x =>
      intro d hd
      exact isBlank_of_first rfl
        (first_of_mem_head rfl (show IsIdentifier x from h).accepted d hd)
  | const v =>
      cases v with
      | str s =>
          have htext : (Term.const (.str s)).text.toList =
              '"' :: (s.toList.flatMap Value.quoteChar ++ ['"']) := String.toList_ofList
          rw [htext]
          rintro d ⟨⟩
          rfl
      | int i =>
          intro d hd
          exact isBlank_of_first rfl
            (first_of_mem_head rfl (matches_toString i.toInt) d hd)
      | float x =>
          intro d hd
          exact isBlank_of_first rfl
            (first_of_mem_head rfl (Binary64.matches_text h) d hd)

/-- The pieces of some arguments. -/
def argumentPieces (arguments : List (Located Term)) : List Piece :=
  [(.terminal .comma, [',']), (.blank, [' '])].intercalate
    (arguments.map fun a => [a.item.piece])

theorem textOf_argumentPieces (arguments : List (Located Term)) :
    textOf (argumentPieces arguments) =
      (", ".intercalate (arguments.map (·.item.text))).toList := by
  rw [argumentPieces, textOf_intercalate, String.toList_intercalate, List.map_map, List.map_map]
  congr 1
  apply List.map_congr_left
  intro a _
  exact List.append_nil _

/-- Arguments are read up to the parenthesis that closes them. -/
theorem spelled_argumentPieces {arguments : List (Located Term)}
    (h : ∀ a ∈ arguments, a.item.IsPrintable) (htail : tail.head? = some ')') :
    Spelled (argumentPieces arguments) tail := by
  have hblock (a : Located Term) (ha : a ∈ arguments) (rest : List Char)
      (hrest : ∀ d ∈ rest.head?, d = ',' ∨ d = ')') : Spelled [a.item.piece] rest :=
    ⟨(h a ha).reads hrest, trivial⟩
  refine spelled_intercalate ?_ ?_ ?_
  · intro block hmem rest
    obtain ⟨a, ha, rfl⟩ := List.mem_map.1 hmem
    refine ⟨reads_comma, reads_space ?_, trivial⟩
    have htext : textOf [] ++ (textOf [a.item.piece] ++ rest) = a.item.text.toList ++ rest :=
      congrArg (· ++ rest) (List.append_nil _)
    rw [htext]
    exact (h a ha).isBlank_head
  · intro block hmem rest
    obtain ⟨a, ha, rfl⟩ := List.mem_map.1 hmem
    apply hblock a ha _
    rintro d ⟨⟩
    exact .inl rfl
  · intro block hmem
    obtain ⟨a, ha, rfl⟩ := List.mem_map.1 hmem
    refine hblock a ha _ fun d hd => .inr ?_
    rw [htail] at hd
    exact (Option.some.inj hd).symm

end Terms

section Names

/-- The sign at the end of a name. -/
def signOf? (cs : List Char) : Option Terminal :=
  match cs.getLast? with
  | some '+' => some .plus
  | some '-' => some .minus
  | _ => none

/-- A name without the sign at its end. -/
def unsigned (cs : List Char) : List Char := if (signOf? cs).isSome then cs.dropLast else cs

/-- The characters of a terminal that is always written in the same way. -/
def signText (t : Terminal) : List Char := t.name.toList

theorem unsigned_append_sign (cs : List Char) :
    unsigned cs ++ (signOf? cs).elim [] signText = cs := by
  rw [unsigned, signOf?]
  split
  · next h =>
      obtain ⟨front, rfl⟩ := List.getLast?_eq_some_iff.1 h
      exact congrArg (· ++ ['+']) List.dropLast_concat
  · next h =>
      obtain ⟨front, rfl⟩ := List.getLast?_eq_some_iff.1 h
      exact congrArg (· ++ ['-']) List.dropLast_concat
  · exact List.append_nil cs

theorem signOf?_append_plus (cs : List Char) : signOf? (cs ++ ['+']) = some .plus := by
  rw [signOf?, List.getLast?_concat]
  rfl

theorem signOf?_append_minus (cs : List Char) : signOf? (cs ++ ['-']) = some .minus := by
  rw [signOf?, List.getLast?_concat]
  rfl

theorem signOf?_eq_none {cs : List Char} (h : ∀ c ∈ cs, c ≠ '+' ∧ c ≠ '-') : signOf? cs = none := by
  rw [signOf?]
  split
  · next hlast => exact absurd rfl (h '+' (List.mem_of_getLast? hlast)).1
  · next hlast => exact absurd rfl (h '-' (List.mem_of_getLast? hlast)).2
  · rfl

/-- The identifiers of a name. -/
def partsOf (cs : List Char) : List (List Char) := (unsigned cs).splitOn ':'

/-- The piece of the sign at the end of a name. -/
def signPieces (cs : List Char) : List Piece :=
  (signOf? cs).toList.map fun t => (.terminal t, signText t)

/-- The pieces of a name: identifiers with colons between them, then a sign. -/
def namePieces (cs : List Char) : List Piece :=
  [(TextClass.terminal .colon, [':'])].intercalate
      ((partsOf cs).map fun part => [(.terminal .identifier, part)]) ++
    signPieces cs

theorem intercalate_parts (cs : List Char) :
    [':'].intercalate (partsOf cs) ++ (signOf? cs).elim [] signText = cs :=
  (congrArg (· ++ _) (List.intercalate_splitOn ':')).trans (unsigned_append_sign cs)

theorem textOf_namePieces (cs : List Char) : textOf (namePieces cs) = cs := by
  have hparts : ((partsOf cs).map fun part => [(TextClass.terminal .identifier, part)]).map textOf =
      partsOf cs := by
    rw [List.map_map]
    refine (List.map_congr_left ?_).trans (List.map_id _)
    intro part _
    exact List.append_nil part
  have hsign : textOf (signPieces cs) = (signOf? cs).elim [] signText := by
    rw [signPieces]
    cases signOf? cs with
    | none => rfl
    | some t => exact List.append_nil _
  calc textOf (namePieces cs)
      = [':'].intercalate (partsOf cs) ++ (signOf? cs).elim [] signText := by
        rw [namePieces, textOf_append, textOf_intercalate, hparts, hsign]
        rfl
    _ = cs := intercalate_parts cs

/-- What no identifier contains is in none. -/
theorem IsIdentifier.not_mem {s : String} (h : IsIdentifier s) {c : Char}
    (hc : identifierPattern.uses c = false) : c ∉ s.toList := fun hmem =>
  Bool.false_ne_true (hc.symm.trans (uses_of_matches h.accepted c hmem))

/-- A sign is read in front of a parenthesis. -/
theorem spelled_signPieces (cs : List Char) {tail : List Char} (htail : tail.head? = some '(') :
    Spelled (signPieces cs) tail ∧
      ∀ d ∈ (textOf (signPieces cs) ++ tail).head?, d ∈ ['+', '-', '('] := by
  have hparen : ∀ d ∈ tail.head?, d = '(' := by
    rw [htail]
    rintro d ⟨⟩
    rfl
  rw [signPieces, signOf?]
  split
  · refine ⟨⟨reads_plus, trivial⟩, ?_⟩
    rintro d ⟨⟩
    decide
  · refine ⟨⟨reads_minus fun d hd => ?_, trivial⟩, ?_⟩
    · rw [hparen d hd]
      rfl
    · rintro d ⟨⟩
      decide
  · refine ⟨trivial, fun d hd => ?_⟩
    rw [hparen d hd]
    decide

namespace IsTableText

variable {text sign : String} {parts : List String}

theorem toList_eq (h : IsTableText text parts sign) :
    text.toList = [':'].intercalate (parts.map String.toList) ++ sign.toList := by
  rw [h.text_eq, String.toList_append, String.toList_intercalate]
  rfl

theorem not_mem (h : IsTableText text parts sign) {c : Char} (hcolon : c ≠ ':')
    (hc : identifierPattern.uses c = false) : c ∉ [':'].intercalate (parts.map String.toList) := by
  intro hmem
  rcases mem_intercalate hmem with hsep | ⟨block, hblock, hmem⟩
  · exact hcolon (List.mem_singleton.1 hsep)
  · obtain ⟨part, hpart, rfl⟩ := List.mem_map.1 hblock
    exact (h.identifier part hpart).not_mem hc hmem

theorem unsigned_eq (h : IsTableText text parts sign) :
    unsigned text.toList = [':'].intercalate (parts.map String.toList) := by
  have hplus := h.not_mem (c := '+') (by decide) (by decide)
  have hminus := h.not_mem (c := '-') (by decide) (by decide)
  have hnone : signOf? ([':'].intercalate (parts.map String.toList)) = none :=
    signOf?_eq_none fun c hc => ⟨fun heq => hplus (heq ▸ hc), fun heq => hminus (heq ▸ hc)⟩
  rw [h.toList_eq, unsigned]
  obtain rfl | rfl | rfl : sign = "" ∨ sign = "+" ∨ sign = "-" := by
    simpa using h.sign_mem
  · have hempty : "".toList = [] := rfl
    rw [hempty, List.append_nil, hnone]
    rfl
  · exact (if_pos (congrArg Option.isSome (signOf?_append_plus _))).trans List.dropLast_concat
  · exact (if_pos (congrArg Option.isSome (signOf?_append_minus _))).trans List.dropLast_concat

theorem partsOf_eq (h : IsTableText text parts sign) :
    partsOf text.toList = parts.map String.toList := by
  rw [partsOf, h.unsigned_eq]
  refine List.splitOn_intercalate ':' (fun part hpart => ?_) (by simpa using h.parts_ne)
  obtain ⟨s, hs, rfl⟩ := List.mem_map.1 hpart
  exact (h.identifier s hs).not_mem (by decide)

/-- A name is read in front of a parenthesis. -/
theorem spelled {tail : List Char} (h : IsTableText text parts sign)
    (htail : tail.head? = some '(') : Spelled (namePieces text.toList) tail := by
  obtain ⟨hsign, hhead⟩ := spelled_signPieces text.toList htail
  have hends : ∀ d ∈ [':', '+', '-', '('], isNamePart d = false ∧ d ≠ '.' ∧ d ≠ '!' :=
    List.forall_mem_cons.2 ⟨by decide, List.forall_mem_cons.2 ⟨by decide,
      List.forall_mem_cons.2 ⟨by decide, List.forall_mem_singleton.2 (by decide)⟩⟩⟩
  have hblock (part : String) (hpart : part ∈ parts) (rest : List Char)
      (hrest : ∀ d ∈ rest.head?, d ∈ [':', '+', '-', '(']) :
      Spelled [(.terminal .identifier, part.toList)] rest :=
    ⟨(h.identifier part hpart).reads fun d hd => hends d (hrest d hd), trivial⟩
  rw [namePieces, spelled_append, h.partsOf_eq, List.map_map]
  refine ⟨spelled_intercalate ?_ ?_ ?_, hsign⟩
  · intro block hmem rest
    obtain ⟨part, hpart, rfl⟩ := List.mem_map.1 hmem
    refine ⟨reads_colon fun hminus => ?_, trivial⟩
    have hhead : (part.toList ++ rest).head? = some '-' := by
      simpa [textOf] using hminus
    exact absurd (first_of_mem_head rfl (h.identifier part hpart).accepted '-' hhead) (by decide)
  · intro block hmem rest
    obtain ⟨part, hpart, rfl⟩ := List.mem_map.1 hmem
    apply hblock part hpart _
    rintro d ⟨⟩
    exact List.mem_cons_self
  · intro block hmem
    obtain ⟨part, hpart, rfl⟩ := List.mem_map.1 hmem
    exact hblock part hpart _ fun d hd => List.mem_cons_of_mem _ (hhead d hd)

end IsTableText

end Names

/-- A name begins with its first identifier. -/
theorem IsTableText.isNameStart_head {text sign : String} {parts : List String}
    (h : IsTableText text parts sign) (rest : List Char) :
    ∀ d ∈ (text.toList ++ rest).head?, identifierPattern.first d = true := by
  obtain ⟨part, more, rfl⟩ := List.exists_cons_of_ne_nil h.parts_ne
  rw [h.toList_eq, List.map_cons, intercalate_cons, List.append_assoc, List.append_assoc]
  exact first_of_mem_head rfl (h.identifier part List.mem_cons_self).accepted

/-- A service is one more identifier in front of a table. -/
theorem TableName.IsPrintable.name {t : TableName} (h : t.IsPrintable) :
    ∃ parts sign, IsTableText (t.name none) parts sign := by
  obtain ⟨parts, sign, htable, -⟩ := h.table
  cases hservice : t.service with
  | none =>
      have hname : t.name none = t.table := by
        rw [TableName.name, hservice]
        rfl
      exact ⟨parts, sign, hname ▸ htable⟩
  | some s =>
      have hname : t.name none = s ++ ":" ++ t.table := by
        rw [TableName.name, hservice]
        rfl
      refine ⟨s :: parts, sign, ?_, List.cons_ne_nil _ _,
        List.forall_mem_cons.2 ⟨h.service s hservice, htable.identifier⟩, htable.sign_mem⟩
      rw [hname, htable.text_eq, String.intercalate_cons_of_ne_nil htable.parts_ne]
      exact (String.append_assoc ..).symm

end DatalogPolicy
