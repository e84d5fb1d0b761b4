import DatalogPolicy.Proofs.Json.Scalar
import DatalogPolicy.Proofs.Token.Scan

/-!
# JSON texts are read in one way only

Values with the same text, whatever stands behind it, are the same value, apart from numbers
without digits, which are written as null. The first character of a text tells the kind of
its value, and commas and brackets tell where its items end.
-/

namespace DatalogPolicy.Json

variable {layout : Layout} {depth : Nat} {r s : List Char}

section Sequences

variable {α β : Type} {f : α → String} {g : α → β} {opening closing : String} {xs ys : List α}

/-- The text of an item tells a part of the item and its end, if the text behind it is delimited. -/
def Tells (f : α → String) (g : α → β) (x : α) : Prop :=
  ∀ y r s, Delimited r → Delimited s → (f x).toList ++ r = (f y).toList ++ s → g x = g y ∧ r = s

/-- The items behind the first one, each behind a comma, and what closes them. -/
def restText (layout : Layout) (depth : Nat) (closing : String) (items : List String) : List Char :=
  items.flatMap (fun item => ("," ++ layout.lineBreak (depth + 1)).toList ++ item.toList) ++
    (layout.lineBreak depth ++ closing).toList

theorem restText_cons (item : String) (items : List String) :
    restText layout depth closing (item :: items) =
      ',' :: ((layout.lineBreak (depth + 1)).toList ++
        (item.toList ++ restText layout depth closing items)) := by
  simp only [restText, List.flatMap_cons, String.toList_append, List.append_assoc]
  rfl

theorem toList_enclose_cons (item : String) (items : List String) :
    (layout.enclose depth opening closing (item :: items)).toList =
      opening.toList ++ ((layout.lineBreak (depth + 1)).toList ++
        (item.toList ++ restText layout depth closing items)) := by
  rw [Layout.enclose, if_neg (by simp), restText]
  simp only [String.toList_append, String.toList_intercalate, List.map_cons,
    Token.intercalate_cons, List.flatMap_map, List.append_assoc]

/-- A line break, where there is one, stands before what follows it. -/
theorem head_lineBreak (c : Char) (cs : List Char) :
    ((layout.lineBreak depth).toList ++ c :: cs).head? = some '\n' ∨
      ((layout.lineBreak depth).toList ++ c :: cs).head? = some c := by
  cases layout with
  | compact => exact .inr (by simp [Layout.lineBreak])
  | indented => exact .inl (by simp [Layout.lineBreak])

variable {bracket : Char} (hclosing : closing.toList = [bracket])
  (hbracket : bracket ∈ [']', '\x7d'])
include hclosing hbracket

/-- What closes items begins with a line break or with the closing bracket. -/
theorem head_restText_nil :
    ∀ c ∈ (restText layout depth closing [] ++ r).head?, c ∈ ['\n', ']', '\x7d'] := by
  intro c hc
  rw [restText, List.flatMap_nil, List.nil_append, String.toList_append, hclosing,
    List.append_assoc] at hc
  rcases head_lineBreak bracket r with hhead | hhead
  · cases hhead.symm.trans hc
    exact List.mem_cons_self
  · cases hhead.symm.trans hc
    exact List.mem_cons_of_mem _ hbracket

theorem delimited_restText (items : List String) :
    Delimited (restText layout depth closing items ++ r) := by
  intro c hhead
  cases items with
  | nil =>
      have hc := head_restText_nil hclosing hbracket c hhead
      simp only [List.mem_cons, List.not_mem_nil, or_false] at hc
      rcases hc with rfl | rfl | rfl <;> rfl
  | cons item items =>
      rw [restText_cons] at hhead
      cases hhead
      rfl

theorem restText_nil_ne (item : String) (items : List String) :
    restText layout depth closing [] ++ r ≠ restText layout depth closing (item :: items) ++ s := by
  intro h
  have hcomma := head_restText_nil hclosing hbracket ',' (by rw [h, restText_cons]; rfl)
  exact absurd hcomma (by decide)

/-- The items behind the first one tell what each of them does. -/
theorem restText_cancel (hxs : ∀ x ∈ xs, Tells f g x)
    (h : restText layout depth closing (xs.map f) ++ r =
      restText layout depth closing (ys.map f) ++ s) : xs.map g = ys.map g ∧ r = s := by
  induction xs generalizing ys with
  | nil =>
      -- a comma stands where one of the texts ends and the other goes on
      cases ys with
      | nil => exact ⟨rfl, List.append_cancel_left h⟩
      | cons y ys => exact absurd h (restText_nil_ne hclosing hbracket _ _)
  | cons x xs ih =>
      cases ys with
      | nil => exact absurd h.symm (restText_nil_ne hclosing hbracket _ _)
      | cons y ys =>
          simp only [List.map_cons, restText_cons, List.cons_append, List.append_assoc] at h
          obtain ⟨hx, hrest⟩ := hxs x List.mem_cons_self y _ _
            (delimited_restText hclosing hbracket _) (delimited_restText hclosing hbracket _)
            (List.append_cancel_left (List.cons.inj h).2)
          obtain ⟨htail, hend⟩ := ih (fun x hx => hxs x (List.mem_cons_of_mem _ hx)) hrest
          exact ⟨by rw [List.map_cons, List.map_cons, hx, htail], hend⟩

/-- Brackets without items are closed where items would begin. -/
theorem enclose_nil_ne {item : String} (items : List String)
    (hitem : ∃ c ∈ item.toList.head?, c ∉ [']', '\x7d']) :
    (layout.enclose depth opening closing []).toList ++ r ≠
      (layout.enclose depth opening closing (item :: items)).toList ++ s := by
  intro h
  obtain ⟨c, hc, hopen⟩ := hitem
  obtain ⟨cs, hcs⟩ := List.head?_eq_some_iff.1 hc
  have hnil : layout.enclose depth opening closing [] = opening ++ closing := if_pos rfl
  rw [toList_enclose_cons, hnil, String.toList_append, hcs, hclosing] at h
  simp only [List.append_assoc, List.cons_append] at h
  have hhead := congrArg List.head? (List.append_cancel_left h)
  rcases head_lineBreak c (cs ++ (restText layout depth closing items ++ s)) with hbreak | hbreak
  · cases hhead.trans hbreak
    exact absurd hbracket (by decide)
  · cases hhead.trans hbreak
    exact hopen hbracket

/-- Items between brackets tell what each of them does. -/
theorem enclose_cancel (hxs : ∀ x ∈ xs, Tells f g x)
    (hopen : ∀ x, ∃ c ∈ (f x).toList.head?, c ∉ [']', '\x7d'])
    (h : (layout.enclose depth opening closing (xs.map f)).toList ++ r =
      (layout.enclose depth opening closing (ys.map f)).toList ++ s) :
    xs.map g = ys.map g ∧ r = s := by
  cases xs with
  | nil =>
      cases ys with
      | nil => exact ⟨rfl, List.append_cancel_left h⟩
      | cons y ys => exact absurd h (enclose_nil_ne hclosing hbracket _ (hopen y))
  | cons x xs =>
      cases ys with
      | nil => exact absurd h.symm (enclose_nil_ne hclosing hbracket _ (hopen x))
      | cons y ys =>
          simp only [List.map_cons, toList_enclose_cons, List.append_assoc] at h
          obtain ⟨hx, hrest⟩ := hxs x List.mem_cons_self y _ _
            (delimited_restText hclosing hbracket _) (delimited_restText hclosing hbracket _)
            (List.append_cancel_left (List.append_cancel_left h))
          obtain ⟨htail, hend⟩ :=
            restText_cancel hclosing hbracket (fun x hx => hxs x (List.mem_cons_of_mem _ hx)) hrest
          exact ⟨by rw [List.map_cons, List.map_cons, hx, htail], hend⟩

end Sequences

section Values

variable {v w : Json} {items : List Json} {fields : List (String × Json)}

/-- The text of a field at a depth. -/
def fieldText (layout : Layout) (depth : Nat) (field : String × Json) : String :=
  quote field.1 ++ layout.colon ++ field.2.textAt layout depth

theorem itemTexts_eq_map (items : List Json) :
    itemTexts layout depth items = items.map (textAt layout depth) := by
  induction items with
  | nil => rfl
  | cons item items ih => rw [itemTexts, ih, List.map_cons]

theorem fieldTexts_eq_map (fields : List (String × Json)) :
    fieldTexts layout depth fields = fields.map (fieldText layout depth) := by
  induction fields with
  | nil => rfl
  | cons field fields ih => rw [fieldTexts, ih, List.map_cons, fieldText]

theorem exists_toList_enclose (layout : Layout) (depth : Nat) (opening closing : String)
    (items : List String) :
    ∃ cs, (layout.enclose depth opening closing items).toList = opening.toList ++ cs := by
  cases items with
  | nil => exact ⟨closing.toList, String.toList_append⟩
  | cons item items => exact ⟨_, toList_enclose_cons item items⟩

/-- The first character of a text tells whether its value is opened, and by what. -/
theorem head_textAt (layout : Layout) (depth : Nat) (v : Json) :
    ∃ c ∈ (v.textAt layout depth).toList.head?,
      (if isScalarPart c then none else some c) = v.opening? := by
  cases hopening : v.opening? with
  | none =>
      obtain ⟨hne, hpart⟩ := isScalarPart_textAt layout depth hopening
      obtain ⟨c, cs, htext⟩ := List.exists_cons_of_ne_nil hne
      refine ⟨c, by rw [htext]; rfl, if_pos (hpart c ?_)⟩
      rw [htext]
      exact List.mem_cons_self
  | some opening =>
      cases v with
      | str s =>
          cases hopening
          exact ⟨'"', by rw [textAt, quote, String.toList_ofList]; rfl, by decide⟩
      | array items =>
          cases hopening
          obtain ⟨cs, htext⟩ :=
            exists_toList_enclose layout depth "[" "]" (itemTexts layout (depth + 1) items)
          exact ⟨'[', by rw [textAt, htext]; rfl, by decide⟩
      | object fields =>
          cases hopening
          obtain ⟨cs, htext⟩ := exists_toList_enclose layout depth "\x7b"
            "\x7d" (fieldTexts layout (depth + 1) fields)
          exact ⟨'\x7b', by rw [textAt, htext]; rfl, by decide⟩
      | _ => cases hopening

/-- Values whose texts begin alike are opened alike. -/
theorem opening?_eq
    (h : (v.textAt layout depth).toList ++ r = (w.textAt layout depth).toList ++ s) :
    v.opening? = w.opening? := by
  obtain ⟨c, hc, hv⟩ := head_textAt layout depth v
  obtain ⟨d, hd, hw⟩ := head_textAt layout depth w
  obtain ⟨cs, hcs⟩ := List.head?_eq_some_iff.1 hc
  obtain ⟨ds, hds⟩ := List.head?_eq_some_iff.1 hd
  rw [hcs, hds] at h
  rw [← hv, ← hw, (List.cons.inj h).1]

theorem opening?_mem (v : Json) : v.opening? ∈ [none, some '"', some '[', some '\x7b'] := by
  cases v <;> simp [opening?]

/-- No value begins with a closing bracket. -/
theorem exists_head_textAt (v : Json) :
    ∃ c ∈ (v.textAt layout depth).toList.head?, c ∉ [']', '\x7d'] := by
  obtain ⟨c, hc, hopening⟩ := head_textAt layout depth v
  have hmem := opening?_mem v
  rw [← hopening] at hmem
  refine ⟨c, hc, fun hbracket => ?_⟩
  simp only [List.mem_cons, List.not_mem_nil, or_false] at hbracket
  rcases hbracket with rfl | rfl <;> exact absurd hmem (by decide)

theorem tells_scalar (h : v.opening? = none) : Tells (textAt layout depth) canonical v := by
  intro w r s hr hs heq
  exact scalar_cancel h ((opening?_eq heq).symm.trans h) hr hs heq

theorem tells_quoted (text : String) : Tells (textAt layout depth) canonical (str text) := by
  intro w r s _ _ heq
  have hopening := opening?_eq heq
  cases w with
  | str other =>
      rw [textAt, textAt] at heq
      obtain ⟨rfl, hend⟩ := quote_cancel heq
      exact ⟨rfl, hend⟩
  | _ => cases hopening

theorem tells_array (h : ∀ v ∈ items, Tells (textAt layout (depth + 1)) canonical v) :
    Tells (textAt layout depth) canonical (array items) := by
  intro w r s _ _ heq
  have hopening := opening?_eq heq
  cases w with
  | array others =>
      rw [textAt, textAt, itemTexts_eq_map, itemTexts_eq_map] at heq
      have hclosing : "]".toList = [']'] := rfl
      obtain ⟨hitems, hend⟩ := enclose_cancel hclosing (by decide) h exists_head_textAt heq
      exact ⟨by rw [canonical, canonical, hitems], hend⟩
  | _ => cases hopening

theorem tells_field {field : String × Json} (h : Tells (textAt layout depth) canonical field.2) :
    Tells (fieldText layout depth) (fun p => (p.1, p.2.canonical)) field := by
  intro other r s hr hs heq
  simp only [fieldText, String.toList_append, List.append_assoc] at heq
  obtain ⟨hname, hrest⟩ := quote_cancel heq
  obtain ⟨hvalue, hend⟩ := h other.2 r s hr hs (List.append_cancel_left hrest)
  exact ⟨Prod.ext hname hvalue, hend⟩

theorem exists_head_fieldText (field : String × Json) :
    ∃ c ∈ (fieldText layout depth field).toList.head?, c ∉ [']', '\x7d'] := by
  refine ⟨'"', ?_, by decide⟩
  simp only [fieldText, quote, String.toList_append, String.toList_ofList, List.cons_append]
  rfl

theorem tells_object (h : ∀ p ∈ fields, Tells (textAt layout (depth + 1)) canonical p.2) :
    Tells (textAt layout depth) canonical (object fields) := by
  intro w r s _ _ heq
  have hopening := opening?_eq heq
  cases w with
  | object others =>
      rw [textAt, textAt, fieldTexts_eq_map, fieldTexts_eq_map] at heq
      have hclosing : "\x7d".toList = ['\x7d'] := rfl
      obtain ⟨hfields, hend⟩ := enclose_cancel hclosing (by decide)
        (fun p hp => tells_field (h p hp)) exists_head_fieldText heq
      exact ⟨by rw [canonical, canonical, hfields], hend⟩
  | _ => cases hopening

/-- The text of a value tells the value and its end, if the text behind it is delimited. -/
theorem tells_textAt (v : Json) (depth : Nat) : Tells (textAt layout depth) canonical v := by
  induction v using canonical.induct generalizing depth with
  | case1 => exact tells_scalar rfl
  | case2 b => exact tells_scalar rfl
  | case3 i => exact tells_scalar rfl
  | case4 x _ => exact tells_scalar rfl
  | case5 x _ => exact tells_scalar rfl
  | case6 text => exact tells_quoted text
  | case7 items ih => exact tells_array fun v hv => ih v hv (depth + 1)
  | case8 fields ih => exact tells_object fun p hp => ih p hp (depth + 1)

/-- Values with the same text are the same, apart from numbers without digits. -/
theorem canonical_eq_of_text (h : v.text layout = w.text layout) : v.canonical = w.canonical := by
  have hnil : Delimited [] := by simp [Delimited]
  exact (tells_textAt v 0 w [] [] hnil hnil (by rw [← text, ← text, h])).1

end Values

end DatalogPolicy.Json
