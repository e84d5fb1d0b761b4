import DatalogPolicy.Text.Escape
import DatalogPolicy.Value

/-!
# Quoted texts read back

Every text stands between its quotes for itself: what the escapes of a quoted text
stand for are the characters that were escaped.
-/

namespace DatalogPolicy

namespace Text

theorem unescape_cons {c : Char} (hc : c ≠ '\\') (rest : List Char) :
    unescape (c :: rest) = (unescape rest).map (c :: ·) := by
  rw [unescape]
  intro h
  exact hc h

theorem unescape_escaped {c d : Char} (h : escaped? c = some d) (rest : List Char) :
    unescape ('\\' :: c :: rest) = (unescape rest).map (d :: ·) := by
  rw [unescape, h]

theorem unquote_quoted {quote : Char} (hq : isQuote quote = true) (body : List Char) :
    unquote (quote :: (body ++ [quote])) = body := by
  simp [unquote, hq]

end Text

namespace Value

/-- The characters that stand for a character in a quoted text are read as that character. -/
theorem unescape_quoteChar (c : Char) (rest : List Char) :
    Text.unescape (quoteChar c ++ rest) = (Text.unescape rest).map (c :: ·) := by
  unfold quoteChar
  split
  · next h => subst h; exact Text.unescape_escaped rfl rest
  · split
    · next h => subst h; exact Text.unescape_escaped rfl rest
    · next hslash =>
        split
        · next h => subst h; exact Text.unescape_escaped rfl rest
        · split
          · next h => subst h; exact Text.unescape_escaped rfl rest
          · exact Text.unescape_cons hslash rest

theorem unescape_flatMap_quoteChar (cs : List Char) :
    Text.unescape (cs.flatMap quoteChar) = .ok cs := by
  induction cs with
  | nil => rfl
  | cons c rest ih =>
      rw [List.flatMap_cons, unescape_quoteChar, ih]
      rfl

/-- A quoted text has the text as its value. -/
theorem quotedValue_quote (text : String) : Text.quotedValue (quote text) = .ok text := by
  rw [Text.quotedValue, quote, String.toList_ofList, Text.unquote_quoted rfl,
    unescape_flatMap_quoteChar]
  exact congrArg Except.ok String.ofList_toList

end Value

end DatalogPolicy
