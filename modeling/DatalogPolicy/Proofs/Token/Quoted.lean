import DatalogPolicy.Proofs.Text.Escape
import DatalogPolicy.Proofs.Token.Classes
import DatalogPolicy.Proofs.Token.Lexemes

/-!
# What quoted texts stand for

In a quoted text that is scanned, the backslash of an escape always has a character after it.
The text has a value unless there is no escape with that character.
-/

namespace DatalogPolicy

open Pattern TextClass

/-- Between the quotes of a text, the backslash of an escape stands before a character with which
there is no escape. -/
def Text.HasUnknownEscape (text : String) (c : Char) : Prop :=
  ∃ quote front rest, text.toList = quote :: (front ++ '\\' :: c :: rest ++ [quote]) ∧
    isQuote quote = true ∧ Items quote front ∧ escaped? c = none

section Quoted

variable {quote : Char} {cs body : List Char}

theorem TextClass.matches_quoted : (quotedPattern quote).Matches cs ↔
    ∃ body, Items quote body ∧ cs = quote :: (body ++ [quote]) := by
  have hpattern : quotedPattern quote =
      sequence (char quote) (sequence (itemsPattern quote) (char quote)) := rfl
  rw [hpattern, matches_sequence]
  constructor
  · rintro ⟨opening, inner, rfl, hopening, hinner⟩
    obtain ⟨body, closing, rfl, hbody, hclosing⟩ := matches_sequence.1 hinner
    rw [matches_char.1 hopening, matches_char.1 hclosing]
    exact ⟨body, matches_items.1 hbody, rfl⟩
  · rintro ⟨body, hbody, rfl⟩
    exact ⟨[quote], body ++ [quote], rfl, matches_char.2 rfl,
      .sequence (matches_items.2 hbody) (matches_char.2 rfl)⟩

/-- A string that is scanned stands between two equal quotes. -/
theorem Lexeme.IsAccepted.exists_items {x : Lexeme} (h : x.IsAccepted)
    (hterminal : x.terminal = .string) :
    ∃ quote body, Text.isQuote quote = true ∧ Items quote body ∧
      x.text.toList = quote :: (body ++ [quote]) := by
  have hmatch : (either (quotedPattern '"') (quotedPattern '\x27')).Matches x.text.toList :=
    h.matches_pattern hterminal (by simp [all])
  rcases matches_either.1 hmatch with hdouble | hsingle
  · obtain ⟨body, hbody, htext⟩ := matches_quoted.1 hdouble
    exact ⟨'"', body, rfl, hbody, htext⟩
  · obtain ⟨body, hbody, htext⟩ := matches_quoted.1 hsingle
    exact ⟨'\x27', body, rfl, hbody, htext⟩

/-- Items stand for characters, up to the first escape that is unknown. -/
theorem Text.unescape_items (h : Items quote body) :
    (∃ ds, unescape body = .ok ds) ∨
      ∃ front c rest, body = front ++ '\\' :: c :: rest ∧ Items quote front ∧
        escaped? c = none ∧ unescape body = .error (.unknown c) := by
  induction h with
  | nil => exact .inl ⟨[], rfl⟩
  | @plain c cs hc _ ih =>
      have hslash : c ≠ '\\' := by
        rintro rfl
        simp [isPlain] at hc
      rw [unescape_cons hslash]
      rcases ih with ⟨ds, hds⟩ | ⟨front, d, rest, rfl, hfront, hd, herror⟩
      · rw [hds]
        exact .inl ⟨c :: ds, rfl⟩
      · rw [herror]
        exact .inr ⟨c :: front, d, rest, rfl, .plain hc hfront, hd, rfl⟩
  | @escaped c cs hc _ ih =>
      cases hescape : escaped? c with
      | none => exact .inr ⟨[], c, cs, rfl, .nil, hescape, by rw [unescape, hescape]⟩
      | some e =>
          rw [unescape_escaped hescape]
          rcases ih with ⟨ds, hds⟩ | ⟨front, d, rest, rfl, hfront, hd, herror⟩
          · rw [hds]
            exact .inl ⟨e :: ds, rfl⟩
          · rw [herror]
            exact .inr ⟨'\\' :: c :: front, d, rest, rfl, .escaped hc hfront, hd, rfl⟩

/-- A string that is scanned has a value or an unknown escape. -/
theorem Lexeme.IsAccepted.quotedValue {x : Lexeme} (h : x.IsAccepted)
    (hterminal : x.terminal = .string) :
    (∃ value, Text.quotedValue x.text = .ok value) ∨
      ∃ c, Text.HasUnknownEscape x.text c ∧
        Text.quotedValue x.text = .error (.unknown c) := by
  obtain ⟨quote, body, hquote, hbody, htext⟩ := h.exists_items hterminal
  rw [Text.quotedValue, htext, Text.unquote_quoted hquote]
  rcases Text.unescape_items hbody with ⟨ds, hds⟩ | ⟨front, c, rest, rfl, hfront, hc, herror⟩
  · rw [hds]
    exact .inl ⟨String.ofList ds, rfl⟩
  · rw [herror]
    exact .inr ⟨c, ⟨quote, front, rest, htext, hquote, hfront, hc⟩, rfl⟩

end Quoted

end DatalogPolicy
