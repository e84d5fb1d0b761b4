import DatalogPolicy.Json
import DatalogPolicy.Proofs.Number.Layout
import DatalogPolicy.Proofs.Token.LongestMatch

/-!
# Texts, numbers and words in JSON

A quoted text tells its characters, as what stands for a character is never the beginning
of what stands for another. A number or a word ends where a character follows that belongs
to neither, and tells its value.
-/

namespace DatalogPolicy.Json

section Quoted

/-- The number that a hexadecimal digit denotes. -/
def hexValue (c : Char) : Nat :=
  if c.isDigit then c.toNat - '0'.toNat else c.toNat - 'a'.toNat + 10

/-- The character for which a letter stands behind a backslash. -/
def unescaped : Char → Char
  | 'n' => '\n'
  | 't' => '\t'
  | 'r' => '\r'
  | 'b' => '\x08'
  | 'f' => '\x0c'
  | c => c

/-- The character for which the front of a quoted text stands, and the rest of the text. -/
def readChar? : List Char → Option (Char × List Char)
  | '\\' :: 'u' :: _ :: _ :: high :: low :: rest =>
      some (Char.ofNat (16 * hexValue high + hexValue low), rest)
  | '\\' :: c :: rest => some (unescaped c, rest)
  | c :: rest => some (c, rest)
  | [] => none

theorem readChar?_cons {c : Char} (hc : c ≠ '\\') (rest : List Char) :
    readChar? (c :: rest) = some (c, rest) := by
  rw [readChar?]
  · exact fun _ _ _ _ _ h => absurd h hc
  · exact fun _ _ h => absurd h hc

theorem hexValue_hexDigit : ∀ n < 16, hexValue (hexDigit n) = n := by decide

/-- What stands for a character is read as the character. -/
theorem readChar?_escapeChar (c : Char) (rest : List Char) :
    readChar? (escapeChar c ++ rest) = some (c, rest) := by
  unfold escapeChar
  split
  case h_8 hslash _ _ _ _ _ =>
    split
    · next hcontrol =>
        have hhigh := hexValue_hexDigit (c.toNat / 16) (by omega)
        have hlow := hexValue_hexDigit (c.toNat % 16) (by omega)
        have hvalue : 16 * (c.toNat / 16) + c.toNat % 16 = c.toNat := Nat.div_add_mod ..
        simp only [List.cons_append, List.nil_append, readChar?, hhigh, hlow, hvalue,
          Char.ofNat_toNat]
    · exact readChar?_cons hslash rest
  all_goals rfl

/-- No quote stands where a character of a quoted text does. -/
theorem escapeChar_append_ne (c : Char) (rest tail : List Char) :
    escapeChar c ++ rest ≠ '"' :: tail := by
  intro h
  have hquote : c = '"' := by
    have hread := readChar?_escapeChar c rest
    rw [h, readChar?_cons (by decide)] at hread
    exact (Prod.mk.inj (Option.some.inj hread)).1.symm
  rw [hquote] at h
  exact absurd (List.cons.inj h).1 (by decide)

theorem flatMap_escapeChar_cancel {cs ds r s : List Char}
    (h : cs.flatMap escapeChar ++ '"' :: r = ds.flatMap escapeChar ++ '"' :: s) :
    cs = ds ∧ r = s := by
  induction cs generalizing ds with
  | nil =>
      cases ds with
      | nil => exact ⟨rfl, (List.cons.inj h).2⟩
      | cons d ds =>
          rw [List.flatMap_cons, List.append_assoc] at h
          exact absurd h.symm (escapeChar_append_ne d _ _)
  | cons c cs ih =>
      cases ds with
      | nil =>
          rw [List.flatMap_cons, List.append_assoc] at h
          exact absurd h (escapeChar_append_ne c _ _)
      | cons d ds =>
          rw [List.flatMap_cons, List.flatMap_cons, List.append_assoc, List.append_assoc] at h
          have hread := congrArg readChar? h
          rw [readChar?_escapeChar, readChar?_escapeChar] at hread
          obtain ⟨rfl, hrest⟩ := Prod.mk.inj (Option.some.inj hread)
          obtain ⟨rfl, htail⟩ := ih hrest
          exact ⟨rfl, htail⟩

/-- A quoted text tells its characters and its end. -/
theorem quote_cancel {a b : String} {r s : List Char}
    (h : (quote a).toList ++ r = (quote b).toList ++ s) : a = b ∧ r = s := by
  simp only [quote, String.toList_ofList, List.cons_append, List.append_assoc,
    List.nil_append] at h
  obtain ⟨htext, hrest⟩ := flatMap_escapeChar_cancel (List.cons.inj h).2
  exact ⟨String.toList_inj.1 htext, hrest⟩

end Quoted

/-- The value that can be read from the text: a number without digits is written as null. -/
def canonical : Json → Json
  | .null => .null
  | .bool b => .bool b
  | .int i => .int i
  | .float x => if x.isFinite then .float x else .null
  | .str s => .str s
  | .array items => .array (items.map canonical)
  | .object fields => .object (fields.map fun p => (p.1, canonical p.2))
decreasing_by
  · next hitem =>
      have hlt := List.sizeOf_lt_of_mem hitem
      rw [array.sizeOf_spec]
      omega
  · next hfield =>
      have hlt := List.sizeOf_lt_of_mem hfield
      rw [object.sizeOf_spec]
      rw [Prod.mk.sizeOf_spec] at hlt
      omega

section Scalars

open Pattern TextClass

/-- A character of a number or of a word. -/
def isScalarPart (c : Char) : Bool := isNumeralPart c || isNamePart c

/-- What may stand behind a value: nothing, or what belongs to no number and no word. -/
def Delimited (cs : List Char) : Prop := ∀ c ∈ cs.head?, isScalarPart c = false

/-- The character that opens a value which is no number and no word. -/
def opening? : Json → Option Char
  | .str _ => some '"'
  | .array _ => some '['
  | .object _ => some '\x7b'
  | _ => none

/-- The integer that a numeral denotes. -/
def readInt (cs : List Char) : Int :=
  let (negative, ds) := Decimal.splitSign cs
  if negative then -(Decimal.foldDigits 0 ds : Int) else Decimal.foldDigits 0 ds

/-- The number or the word that a text stands for. -/
def readScalar (cs : List Char) : Json :=
  match classOf cs with
  | .terminal .integer => .int (readInt cs)
  | .terminal .float => ((Binary64.read? (String.ofList cs)).map Json.float).getD .null
  | _ => if cs = "null".toList then .null else .bool (cs = "true".toList)

variable {layout : Layout} {depth : Nat} {v w : Json} {r s : List Char}

theorem readInt_toString (i : Int) : readInt (toString i).toList = i := by
  rw [readInt, toList_toString, Decimal.splitSign_toDigits]
  simp only [Decimal.foldDigits_toDigits, decide_eq_true_eq]
  omega

theorem text_of_not_isFinite {x : Binary64} (h : ¬ x.isFinite = true) : x.text .json = "null" := by
  rw [Binary64.text, if_neg h]
  split <;> rfl

/-- A number or a word is read as the value for which it stands. -/
theorem readScalar_textAt (layout : Layout) (depth : Nat) (h : v.opening? = none) :
    readScalar (v.textAt layout depth).toList = v.canonical := by
  cases v with
  | null =>
      rw [canonical, textAt]
      rfl
  | bool b =>
      rw [canonical, textAt]
      cases b <;> rfl
  | int i =>
      rw [canonical, textAt, readScalar, classOf_integer (matches_toString i)]
      exact congrArg Json.int (readInt_toString i)
  | float x =>
      rw [canonical, textAt]
      split
      · next hfinite =>
          rw [readScalar, classOf_float (Binary64.matches_text hfinite)]
          simp only [String.ofList_toList, Binary64.read?_text hfinite, Option.map_some,
            Option.getD_some]
      · next hinfinite =>
          rw [text_of_not_isFinite hinfinite]
          rfl
  | str s => cases h
  | array items => cases h
  | object fields => cases h

/-- The patterns of words and of numbers. -/
def scalarPatterns : List Pattern := [identifierPattern, integerPattern, floatPattern]

theorem exists_matches_textAt (layout : Layout) (depth : Nat) (h : v.opening? = none) :
    ∃ p ∈ scalarPatterns, p.Matches (v.textAt layout depth).toList := by
  cases v with
  | null =>
      rw [textAt]
      exact ⟨identifierPattern, by simp [scalarPatterns], by decide⟩
  | bool b =>
      rw [textAt]
      refine ⟨identifierPattern, by simp [scalarPatterns], ?_⟩
      cases b <;> decide
  | int i =>
      rw [textAt]
      exact ⟨integerPattern, by simp [scalarPatterns], matches_toString i⟩
  | float x =>
      rw [textAt]
      by_cases hfinite : x.isFinite = true
      · exact ⟨floatPattern, by simp [scalarPatterns], Binary64.matches_text hfinite⟩
      · rw [text_of_not_isFinite hfinite]
        exact ⟨identifierPattern, by simp [scalarPatterns], by decide⟩
  | str s => cases h
  | array items => cases h
  | object fields => cases h

theorem scalarPatterns_nonempty : ∀ p ∈ scalarPatterns, p.acceptsEmpty = false := by decide

theorem scalarPatterns_uses {c : Char} :
    ∀ p ∈ scalarPatterns, p.uses c = true → isScalarPart c = true := by
  simp only [scalarPatterns, List.forall_mem_cons]
  refine ⟨?_, ?_, ?_, fun _ h => absurd h List.not_mem_nil⟩
  all_goals
    simp only [identifierPattern, integerPattern, floatPattern, exponentPattern, uses,
      Pattern.repeated, Pattern.optional, char, isScalarPart, isNumeralPart, isNamePart,
      isNameStart, Char.isAlphanum, Bool.or_eq_true, decide_eq_true_eq, Bool.false_eq_true]
    tauto

/-- The text of a number or of a word begins and goes on with characters of such texts. -/
theorem isScalarPart_textAt (layout : Layout) (depth : Nat) (h : v.opening? = none) :
    (v.textAt layout depth).toList ≠ [] ∧
      ∀ c ∈ (v.textAt layout depth).toList, isScalarPart c = true := by
  obtain ⟨p, hp, hmatch⟩ := exists_matches_textAt layout depth h
  refine ⟨fun hnil => ?_, fun c hc => scalarPatterns_uses p hp (uses_of_matches hmatch c hc)⟩
  rw [hnil] at hmatch
  exact Bool.false_ne_true
    ((scalarPatterns_nonempty p hp).symm.trans ((acceptsEmpty_iff p).2 hmatch))

/-- A number or a word does not go on where the text behind it is delimited. -/
theorem eq_nil_of_delimited {part rest : List Char} (hpart : ∀ c ∈ part, isScalarPart c = true)
    (hrest : Delimited (part ++ rest)) : part = [] := by
  cases part with
  | nil => rfl
  | cons c part =>
      exact absurd (hpart c List.mem_cons_self) (Bool.eq_false_iff.1 (hrest c rfl))

/-- The text of a number or a word tells its value and its end. -/
theorem scalar_cancel (hv : v.opening? = none) (hw : w.opening? = none) (hr : Delimited r)
    (hs : Delimited s)
    (h : (v.textAt layout depth).toList ++ r = (w.textAt layout depth).toList ++ s) :
    v.canonical = w.canonical ∧ r = s := by
  obtain ⟨-, hvs⟩ := isScalarPart_textAt layout depth hv
  obtain ⟨-, hws⟩ := isScalarPart_textAt layout depth hw
  have htext : (v.textAt layout depth).toList = (w.textAt layout depth).toList := by
    -- of two different texts the longer one would go on behind the end of the shorter one
    rcases List.append_eq_append_iff.1 h with ⟨part, heq, rfl⟩ | ⟨part, heq, rfl⟩
    · rw [heq] at hws
      rw [heq, eq_nil_of_delimited (fun c hc => hws c (List.mem_append_right _ hc)) hr,
        List.append_nil]
    · rw [heq] at hvs
      rw [heq, eq_nil_of_delimited (fun c hc => hvs c (List.mem_append_right _ hc)) hs,
        List.append_nil]
  rw [htext] at h
  refine ⟨?_, List.append_cancel_left h⟩
  rw [← readScalar_textAt layout depth hv, htext, readScalar_textAt layout depth hw]

end Scalars

end DatalogPolicy.Json
