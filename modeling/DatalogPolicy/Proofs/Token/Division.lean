import DatalogPolicy.Proofs.Token.LongestMatch
import DatalogPolicy.Proofs.Token.Scan

/-!
# How tokens divide a text

Scanning goes from word to word. Blanks are skipped, and every other word becomes a token:
the longest match of a class, or text at which no class has a match. So the text can be put
together again from the tokens with blanks between them, and each token stands where its
span says.
-/

namespace DatalogPolicy

section Lengths

variable {cs ds : List Char}

theorem Text.byteLength_append : byteLength (cs ++ ds) = byteLength cs + byteLength ds := by
  induction cs with
  | nil => exact (Nat.zero_add _).symm
  | cons c rest ih =>
      show c.utf8Size + byteLength (rest ++ ds) = c.utf8Size + byteLength rest + byteLength ds
      rw [ih, Nat.add_assoc]

theorem Text.byteLength_pos (h : cs ≠ []) : 0 < byteLength cs := by
  cases cs with
  | nil => exact absurd rfl h
  | cons c rest => exact Nat.add_pos_left c.utf8Size_pos _

end Lengths

namespace Token

open TextClass
open Text (byteLength byteLength_append byteLength_pos)

/-- A token of a kind stands with its word at the front of a text, `tail` being the rest. -/
inductive Stands : Kind → List Char → List Char → Prop
  | known {cls kind word tail} (hkind : kind? cls = some kind) (h : cls.Supplies word tail) :
      Stands kind word tail
  | unknown {word tail} (hne : word ≠ []) (h : ¬ AcceptsFront (word ++ tail)) :
      Stands .unknown word tail

/-- The tokens into which a text is divided word by word, its first character standing at the given
offset. -/
inductive Divides : Nat → List Char → List Token → Prop
  | ending {offset} : Divides offset [] [⟨.ending, ⟨offset, offset⟩, ""⟩]
  | blank {offset word tail tokens} (h : TextClass.blank.Supplies word tail)
      (hrest : Divides (offset + byteLength word) tail tokens) :
      Divides offset (word ++ tail) tokens
  | token {offset kind word tail tokens} (h : Stands kind word tail)
      (hrest : Divides (offset + byteLength word) tail tokens) :
      Divides offset (word ++ tail)
        (⟨kind, ⟨offset, offset + byteLength word⟩, String.ofList word⟩ :: tokens)

section Steps

variable {c : Char} {rest word tail : List Char} {kind : Kind}

theorem Stands.ne (h : Stands kind word tail) : word ≠ [] := by
  cases h with
  | known _ h => exact h.ne
  | unknown hne _ => exact hne

theorem Stands.kind_ne (h : Stands kind word tail) : kind ≠ .ending := by
  cases h with
  | @known cls _ _ _ hkind _ =>
      cases cls <;> cases hkind <;> nofun
  | unknown => nofun

/-- A token is unknown where no class has a match. -/
theorem Stands.unknown_iff (h : Stands kind word tail) :
    kind = .unknown ↔ ¬ AcceptsFront (word ++ tail) := by
  cases h with
  | @known cls _ _ _ hkind h =>
      obtain ⟨p, hp, hmatch⟩ := h.accepted
      refine iff_of_false ?_ (not_not.2 ⟨_, hp, word, List.prefix_append word tail, h.ne, hmatch⟩)
      cases cls <;> cases hkind <;> nofun
  | unknown _ h => exact iff_of_true rfl h

theorem Stands.supplies {cls : TextClass} (h : Stands kind word tail)
    (hkind : kind? cls = some kind) : cls.Supplies word tail := by
  cases h with
  | @known found _ _ _ hfound h =>
      have heq : found = cls := by
        cases found <;> cases cls <;> cases hfound <;> cases hkind <;> rfl
      exact heq ▸ h
  | unknown =>
      cases cls <;> cases hkind

theorem isBlank_of_supplies (h : TextClass.blank.Supplies word tail) :
    ∀ c ∈ word, isBlank c = true := by
  obtain ⟨p, hp, hmatch⟩ := h.accepted
  have hpattern : p = Pattern.repeated isBlank := by simpa [all] using hp
  exact (Pattern.matches_repeated.1 (hpattern ▸ hmatch)).2

theorem not_acceptsFront (h : longest? c rest = none) : ¬ AcceptsFront (c :: rest) := by
  rintro ⟨e, he, front, hfront, hne, hmatch⟩
  obtain ⟨d, more, rfl⟩ := List.exists_cons_of_ne_nil hne
  obtain ⟨rfl, after, rfl⟩ := List.cons_prefix_cons.1 hfront
  apply not_matches_of_longest? h he more.length
  rwa [List.take_left]

/-- A text begins with a word that is read, or with text at which no class has a match. -/
theorem exists_word (c : Char) (rest : List Char) : ∃ word tail, c :: rest = word ++ tail ∧
    ((∃ cls : TextClass, cls.Reads word tail) ∨
      Stands .unknown word tail ∧ ∀ offset, scanFrom offset (c :: rest) =
        ⟨.unknown, ⟨offset, offset + byteLength word⟩, String.ofList word⟩ ::
          scanFrom (offset + byteLength word) tail) := by
  cases hmatch : match? c rest with
  | some found =>
      obtain ⟨cls, n⟩ := found
      obtain ⟨⟨first, m⟩, hlongest, heq⟩ := Option.map_eq_some_iff.1 hmatch
      obtain ⟨-, rfl⟩ := Prod.mk.inj heq
      obtain ⟨-, p, -, -, hfound, -⟩ := isFirstLongest_of_longest? hlongest
      have hlength : (rest.take m).length = m :=
        List.length_take_of_le (Pattern.longest?_eq_some_iff.1 hfound).le
      refine ⟨c :: rest.take m, rest.drop m, ?_, .inl ⟨cls, c, rest.take m, rfl, ?_⟩⟩
      · rw [List.cons_append, List.take_append_drop]
      · rw [List.take_append_drop, hlength, hmatch]
  | none =>
      have hword : c :: rest =
          (c :: rest.take (unknownLength c rest)) ++ rest.drop (unknownLength c rest) := by
        rw [List.cons_append, List.take_append_drop]
      have hnone : ¬ AcceptsFront (c :: rest) := not_acceptsFront (Option.map_eq_none_iff.1 hmatch)
      refine ⟨_, _, hword, .inr ⟨.unknown (List.cons_ne_nil _ _) (hword ▸ hnone), fun offset => ?_⟩⟩
      rw [scanFrom, hmatch]
      rfl

/-- What holds of the empty text holds of every text if each word at the front keeps it: one that
is read, or text at which no class has a match. -/
theorem words_induction {P : List Char → Prop} (nil : P [])
    (read : ∀ {cls : TextClass} {word tail}, cls.Reads word tail → P tail → P (word ++ tail))
    (unknown : ∀ {word tail}, Stands .unknown word tail →
      (∀ offset, scanFrom offset (word ++ tail) =
        ⟨.unknown, ⟨offset, offset + byteLength word⟩, String.ofList word⟩ ::
          scanFrom (offset + byteLength word) tail) → P tail → P (word ++ tail)) (cs : List Char) :
    P cs := by
  induction hn : cs.length using Nat.strongRecOn generalizing cs with
  | ind n ih =>
      subst hn
      cases cs with
      | nil => exact nil
      | cons c rest =>
          obtain ⟨word, tail, hsplit, hstep⟩ := exists_word c rest
          rw [hsplit] at ih hstep ⊢
          have hrest (hne : word ≠ []) : P tail := by
            refine ih tail.length ?_ tail rfl
            rw [List.length_append]
            exact Nat.lt_add_of_pos_left (List.length_pos_iff.2 hne)
          rcases hstep with ⟨cls, hread⟩ | ⟨hstands, hscan⟩
          · exact read hread (hrest hread.supplies.ne)
          · exact unknown hstands hscan (hrest hstands.ne)

/-- Scanning divides a text into tokens. -/
theorem divides_scanFrom (offset : Nat) (cs : List Char) :
    Divides offset cs (scanFrom offset cs) := by
  induction cs using words_induction generalizing offset with
  | nil =>
      rw [scanFrom]
      exact .ending
  | @read cls word tail hread ih =>
      have hsupplies := hread.supplies
      rw [scanFrom_append hread]
      cases cls with
      | terminal _ | comment => exact .token (.known rfl hsupplies) (ih _)
      | blank => exact .blank hsupplies (ih _)
  | unknown hstands hscan ih =>
      rw [hscan]
      exact .token hstands (ih _)

end Steps

section Runs

variable {offset : Nat} {cs : List Char} {tokens : List Token}

/-- The end of a text is the last token and no other. -/
theorem Divides.exists_before (h : Divides offset cs tokens) :
    ∃ before, tokens = before ++
        [⟨.ending, ⟨offset + byteLength cs, offset + byteLength cs⟩, ""⟩] ∧
      ∀ t ∈ before, t.kind ≠ .ending := by
  induction h with
  | ending => exact ⟨[], rfl, nofun⟩
  | blank _ _ ih =>
      obtain ⟨before, htokens, hbefore⟩ := ih
      exact ⟨before, by rw [htokens, byteLength_append, Nat.add_assoc], hbefore⟩
  | @token offset kind word _ _ h _ ih =>
      obtain ⟨before, htokens, hbefore⟩ := ih
      refine ⟨⟨kind, ⟨offset, offset + byteLength word⟩, String.ofList word⟩ :: before, ?_,
        List.forall_mem_cons.2 ⟨h.kind_ne, hbefore⟩⟩
      rw [htokens, byteLength_append, Nat.add_assoc, List.cons_append]

theorem Divides.le_start (h : Divides offset cs tokens) : ∀ t ∈ tokens, offset ≤ t.span.start := by
  induction h with
  | ending => exact List.forall_mem_singleton.2 (Nat.le_refl _)
  | blank _ _ ih => exact fun t ht => Nat.le_of_add_right_le (ih t ht)
  | token _ _ ih =>
      refine List.forall_mem_cons.2 ⟨Nat.le_refl _, fun t ht => ?_⟩
      exact Nat.le_of_add_right_le (ih t ht)

/-- Each token begins where those before it have ended, or later. -/
theorem Divides.ordered (h : Divides offset cs tokens) :
    tokens.Pairwise fun a b => a.span.start < b.span.start ∧ a.span.stop ≤ b.span.start := by
  induction h with
  | ending => exact List.pairwise_singleton _ _
  | blank _ _ ih => exact ih
  | token h hrest ih =>
      refine List.pairwise_cons.2 ⟨fun t ht => ?_, ih⟩
      have hstop := hrest.le_start t ht
      exact ⟨Nat.lt_of_lt_of_le (Nat.lt_add_of_pos_right (byteLength_pos h.ne)) hstop, hstop⟩

/-- A token stands where its span says, in a text whose first character stands at an offset. -/
def StandsIn (offset : Nat) (cs : List Char) (t : Token) : Prop :=
  ∃ front word tail, cs = front ++ word ++ tail ∧
    t.span = ⟨offset + byteLength front, offset + byteLength (front ++ word)⟩ ∧
    t.text = String.ofList word ∧ Stands t.kind word tail

theorem StandsIn.append {word : List Char} {t : Token}
    (h : StandsIn (offset + byteLength word) cs t) : StandsIn offset (word ++ cs) t := by
  obtain ⟨front, word', tail, rfl, hspan, htext, hstands⟩ := h
  refine ⟨word ++ front, word', tail, ?_, ?_, htext, hstands⟩
  · simp only [List.append_assoc]
  · simp only [hspan, byteLength_append, Nat.add_assoc]

/-- Each token but the end stands in the text. -/
theorem Divides.stands (h : Divides offset cs tokens) :
    ∀ t ∈ tokens, t.kind ≠ .ending → StandsIn offset cs t := by
  induction h with
  | ending => exact List.forall_mem_singleton.2 (absurd rfl)
  | blank _ _ ih => exact fun t ht hkind => (ih t ht hkind).append
  | token h _ ih =>
      refine List.forall_mem_cons.2 ⟨fun _ => ⟨[], _, _, rfl, rfl, rfl, h⟩, ?_⟩
      exact fun t ht hkind => (ih t ht hkind).append

/-- A character of a text stands in its first part or in the rest. -/
theorem append_eq_append_cons {word tail front back : List Char} {c : Char}
    (h : word ++ tail = front ++ c :: back) :
    (∃ more, word = front ++ c :: more) ∨
      ∃ more, front = word ++ more ∧ tail = more ++ c :: back := by
  rcases List.append_eq_append_iff.1 h with ⟨more, hfront, htail⟩ | ⟨more, hword, hback⟩
  · exact .inr ⟨more, hfront, htail⟩
  · cases more with
    | nil =>
        refine .inr ⟨[], ?_, hback.symm⟩
        rw [hword, List.append_nil, List.append_nil]
    | cons d more =>
        rw [(List.cons.inj hback).1]
        exact .inl ⟨more, hword⟩

/-- What no token covers is blank. -/
theorem Divides.covers (h : Divides offset cs tokens) {front back : List Char} {c : Char}
    (hcs : cs = front ++ c :: back) : isBlank c = true ∨ ∃ t ∈ tokens,
      t.span.start ≤ offset + byteLength front ∧ offset + byteLength front < t.span.stop := by
  induction h generalizing front with
  | ending => cases front <;> cases hcs
  | blank h _ ih =>
      rcases append_eq_append_cons hcs with ⟨more, rfl⟩ | ⟨more, rfl, htail⟩
      · exact .inl (isBlank_of_supplies h c (List.mem_append_right front List.mem_cons_self))
      · rw [byteLength_append, ← Nat.add_assoc]
        exact ih htail
  | token h _ ih =>
      rcases append_eq_append_cons hcs with ⟨more, rfl⟩ | ⟨more, rfl, htail⟩
      · refine .inr ⟨_, List.mem_cons_self, Nat.le_add_right _ _, ?_⟩
        rw [byteLength_append]
        exact Nat.add_lt_add_left
          (Nat.lt_add_of_pos_right (byteLength_pos (List.cons_ne_nil c more))) _
      · rw [byteLength_append, ← Nat.add_assoc]
        exact (ih htail).imp_right fun ⟨t, ht, hspan⟩ => ⟨t, List.mem_cons_of_mem _ ht, hspan⟩

/-- The texts of some tokens, with a gap before each. -/
def spaced (gaps : List (List Char)) (tokens : List Token) : List Char :=
  (List.zipWith (fun gap t => gap ++ t.text.toList) gaps tokens).flatten

/-- A text is the texts of its tokens with blanks between them. -/
theorem Divides.exists_gaps (h : Divides offset cs tokens) :
    ∃ gaps, gaps.length = tokens.length ∧ (∀ gap ∈ gaps, ∀ c ∈ gap, isBlank c = true) ∧
      cs = spaced gaps tokens := by
  induction h with
  | ending => exact ⟨[[]], rfl, List.forall_mem_singleton.2 nofun, rfl⟩
  | @blank offset word tail tokens h hrest ih =>
      obtain ⟨gaps, hlength, hblank, rfl⟩ := ih
      obtain ⟨before, htokens, -⟩ := hrest.exists_before
      obtain ⟨gap, gaps, rfl⟩ : ∃ gap gaps', gaps = gap :: gaps' := by
        apply List.exists_cons_of_length_pos
        rw [hlength, htokens, List.length_append]
        exact Nat.succ_pos _
      obtain ⟨t, tokens, rfl⟩ := List.exists_cons_of_length_eq_add_one hlength.symm
      obtain ⟨hgap, hgaps⟩ := List.forall_mem_cons.1 hblank
      refine ⟨(word ++ gap) :: gaps, hlength, List.forall_mem_cons.2 ⟨?_, hgaps⟩, ?_⟩
      · exact List.forall_mem_append.2 ⟨isBlank_of_supplies h, hgap⟩
      · simp only [spaced, List.zipWith_cons_cons, List.flatten_cons, List.append_assoc]
  | @token offset kind word tail tokens h _ ih =>
      obtain ⟨gaps, hlength, hblank, rfl⟩ := ih
      refine ⟨[] :: gaps, congrArg Nat.succ hlength, List.forall_mem_cons.2 ⟨nofun, hblank⟩, ?_⟩
      simp only [spaced, List.zipWith_cons_cons, List.flatten_cons, List.nil_append,
        String.toList_ofList]

end Runs

/-- Nothing of a text is lost in its tokens. -/
structure AccountFor (cs : List Char) (tokens : List Token) : Prop where
  /-- The end of the text is the last token and no other. -/
  ending : ∃ before,
    tokens = before ++ [⟨.ending, ⟨byteLength cs, byteLength cs⟩, ""⟩] ∧
      ∀ t ∈ before, t.kind ≠ .ending
  nonempty : ∀ t ∈ tokens, t.kind ≠ .ending → t.span.start < t.span.stop
  ordered : tokens.Pairwise fun a b => a.span.start < b.span.start ∧ a.span.stop ≤ b.span.start
  /-- The text of a token is the part of the text that its span covers, which begins and stops
  between characters. -/
  text : ∀ t ∈ tokens, ∃ front back, cs = front ++ t.text.toList ++ back ∧
    t.span = ⟨byteLength front, byteLength (front ++ t.text.toList)⟩
  /-- A character outside all spans is blank. -/
  blank : ∀ front c back, cs = front ++ c :: back →
    (∀ t ∈ tokens, byteLength front < t.span.start ∨ t.span.stop ≤ byteLength front) →
      isBlank c = true
  /-- The text is put together from the texts of the tokens and blanks. -/
  gaps : ∃ gaps, gaps.length = tokens.length ∧ (∀ gap ∈ gaps, ∀ c ∈ gap, isBlank c = true) ∧
    cs = spaced gaps tokens

/-- The tokens of a text account for all of it. -/
theorem scan_accountFor (cs : List Char) : AccountFor cs (scan cs) := by
  have h : Divides 0 cs (scan cs) := divides_scanFrom 0 cs
  obtain ⟨before, htokens, hbefore⟩ := h.exists_before
  rw [Nat.zero_add] at htokens
  refine ⟨⟨before, htokens, hbefore⟩, ?_, h.ordered, ?_, ?_, h.exists_gaps⟩
  · intro t ht hkind
    obtain ⟨front, word, tail, -, hspan, -, hstands⟩ := h.stands t ht hkind
    rw [hspan, byteLength_append]
    exact Nat.add_lt_add_left (Nat.lt_add_of_pos_right (byteLength_pos hstands.ne)) 0
  · intro t ht
    by_cases hkind : t.kind = .ending
    · rw [htokens, List.mem_append, List.mem_singleton] at ht
      obtain rfl := ht.resolve_left fun hmem => hbefore t hmem hkind
      refine ⟨cs, [], ?_, ?_⟩ <;> simp
    · obtain ⟨front, word, tail, rfl, hspan, htext, -⟩ := h.stands t ht hkind
      refine ⟨front, tail, ?_, ?_⟩ <;> simp [hspan, htext]
  · intro front c back hcs houtside
    rcases h.covers hcs with hblank | ⟨t, ht, hstart, hstop⟩
    · exact hblank
    · rw [Nat.zero_add] at hstart hstop
      rcases houtside t ht with hbegin | hend
      · exact absurd hbegin (Nat.not_lt_of_le hstart)
      · exact absurd hstop (Nat.not_lt_of_le hend)

/-- A token is the longest match at the place where it begins, and unknown where there is none. -/
def IsLongestMatch (cs : List Char) (t : Token) : Prop :=
  ∃ front word tail, cs = front ++ word ++ tail ∧ t.text = String.ofList word ∧
    t.span = ⟨byteLength front, byteLength (front ++ word)⟩ ∧
    (t.kind = .unknown ↔ ¬ AcceptsFront (word ++ tail)) ∧
    ∀ cls, kind? cls = some t.kind → cls.Supplies word tail

/-- The tokens of a text are longest matches of the classes, of which no two accept the same word,
the words for negation apart: these are negations unless a point follows them. -/
theorem scan_isLongestMatch {cs : List Char} {t : Token} (ht : t ∈ scan cs)
    (hkind : t.kind ≠ .ending) : IsLongestMatch cs t := by
  have h : Divides 0 cs (scan cs) := divides_scanFrom 0 cs
  obtain ⟨front, word, tail, hcs, hspan, htext, hstands⟩ := h.stands t ht hkind
  rw [Nat.zero_add, Nat.zero_add] at hspan
  refine ⟨front, word, tail, hcs, htext, hspan, hstands.unknown_iff, fun cls hcls => ?_⟩
  exact hstands.supplies hcls

/-- A word for negation with a point behind it is the longest match, as an identifier. -/
theorem isLongestMatch_beforePoint :
    (⟨.terminal .identifier, ⟨0, 3⟩, "not"⟩ : Token) ∈ scan ['n', 'o', 't', '.'] ∧
      IsLongestMatch ['n', 'o', 't', '.'] ⟨.terminal .identifier, ⟨0, 3⟩, "not"⟩ :=
  ⟨by decide +kernel, scan_isLongestMatch (by decide +kernel) nofun⟩

/-- Not every word for negation is a negation. -/
theorem exists_negationWord_identifier :
    ∃ t ∈ scan ['n', 'o', 't', '.'], t.text = "not" ∧ t.kind ≠ .terminal .negation :=
  ⟨⟨.terminal .identifier, ⟨0, 3⟩, "not"⟩, by decide +kernel, rfl, nofun⟩

end Token

end DatalogPolicy
