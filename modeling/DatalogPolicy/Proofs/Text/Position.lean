import DatalogPolicy.Text.Position
import Mathlib.Data.List.Basic
import Mathlib.Data.List.TakeWhile

/-!
# Positions are exact

The line of an offset is one more than the number of newline bytes before it, and its column
counts the bytes from the beginning of that line. The beginnings of lines increase strictly, so
a search among them finds the line of every offset, inside the text or beyond it, and later
offsets have later positions. As columns are counted from one, the greatest offset has no column
if it is counted from the beginning of the text: its column would be no machine word.
-/

namespace DatalogPolicy

namespace Text

/-- The bytes of a text. -/
def bytes (text : String) : List UInt8 := text.toByteArray.data.toList

/-- The byte that ends a line. -/
def newline : UInt8 := 10

/-- The offsets just after the newline bytes, the first byte standing at `offset`. -/
def newlineStops (offset : Nat) : List UInt8 → List Nat
  | [] => []
  | b :: rest =>
      if b = newline then (offset + 1) :: newlineStops (offset + 1) rest
      else newlineStops (offset + 1) rest

/-- The line of the byte at `offset` begins at `start`: there, or at the beginning of the text,
the last newline byte before the offset has ended. -/
structure IsLineStart (bs : List UInt8) (offset start : Nat) : Prop where
  le : start ≤ offset
  after_newline : start = 0 ∨ ∃ i, start = i + 1 ∧ bs[i]? = some newline
  free : ∀ i, start ≤ i → i < offset → bs[i]? ≠ some newline

section Bytes

variable {o : Nat} {xs ys bs : List UInt8}

theorem bytes_eq (text : String) : bytes text = text.toList.flatMap String.utf8EncodeChar := by
  have hbytes : text.toByteArray = text.toList.utf8Encode := by
    rw [← String.toByteArray_ofList, String.ofList_toList]
  rw [bytes, hbytes, List.utf8Encode, List.toList_data_toByteArray]

/-- Only the newline is encoded with a newline byte. -/
theorem newline_not_mem {c : Char} (hc : c ≠ '\n') : newline ∉ String.utf8EncodeChar c := by
  have hten : c.val.toNat ≠ 10 := fun h => hc (Char.ext (UInt32.toNat_inj.1 h))
  have hbyte {n : Nat} (hn : n % 256 ≠ 10) : newline ≠ UInt8.ofNat n := fun h =>
    hn (UInt8.toNat_ofNat' ▸ (congrArg UInt8.toNat h).symm)
  rw [String.utf8EncodeChar]
  split
  · next hone => exact fun h => hbyte (by omega) (List.mem_singleton.1 h)
  · -- every byte of a longer encoding is at least 128
    split
    · simp only [List.mem_cons, List.not_mem_nil, or_false, not_or]
      exact ⟨hbyte (by omega), hbyte (by omega)⟩
    · split <;> simp only [List.mem_cons, List.not_mem_nil, or_false, not_or]
      · exact ⟨hbyte (by omega), hbyte (by omega), hbyte (by omega)⟩
      · exact ⟨hbyte (by omega), hbyte (by omega), hbyte (by omega), hbyte (by omega)⟩

theorem newlineStops_append :
    newlineStops o (xs ++ ys) = newlineStops o xs ++ newlineStops (o + xs.length) ys := by
  induction xs generalizing o with
  | nil => rfl
  | cons b rest ih =>
      have hlength : o + (b :: rest).length = o + 1 + rest.length := by
        rw [List.length_cons]
        omega
      rw [List.cons_append, newlineStops, newlineStops, ih, hlength]
      split <;> rfl

theorem newlineStops_eq_nil (h : newline ∉ bs) : newlineStops o bs = [] := by
  induction bs generalizing o with
  | nil => rfl
  | cons b rest ih =>
      rw [List.mem_cons, not_or] at h
      rw [newlineStops, if_neg (Ne.symm h.1)]
      exact ih h.2

/-- Lines begin just after the newline bytes. -/
theorem lineStarts_eq (o : Nat) (cs : List Char) :
    lineStarts o cs = newlineStops o (cs.flatMap String.utf8EncodeChar) := by
  induction cs generalizing o with
  | nil => rfl
  | cons c rest ih =>
      rw [List.flatMap_cons, newlineStops_append, String.length_utf8EncodeChar, lineStarts, ih]
      split
      · next hc =>
          subst hc
          rfl
      · next hc => rw [newlineStops_eq_nil (newline_not_mem hc), List.nil_append]

theorem length_newlineStops : (newlineStops o bs).length = bs.count newline := by
  induction bs generalizing o with
  | nil => rfl
  | cons b rest ih =>
      rw [newlineStops, List.count_cons]
      split
      · next hb => rw [List.length_cons, ih, if_pos (beq_iff_eq.2 hb)]
      · next hb => rw [ih, if_neg (mt beq_iff_eq.1 hb), Nat.add_zero]

theorem lt_of_mem_newlineStops {n : Nat} (h : n ∈ newlineStops o bs) : o < n := by
  induction bs generalizing o with
  | nil => exact absurd h List.not_mem_nil
  | cons b rest ih =>
      rw [newlineStops] at h
      split at h
      · rcases List.mem_cons.1 h with rfl | hrest
        · exact Nat.lt_succ_self o
        · exact Nat.lt_of_succ_lt (ih hrest)
      · exact Nat.lt_of_succ_lt (ih h)

theorem pairwise_newlineStops : (newlineStops o bs).Pairwise (· < ·) := by
  induction bs generalizing o with
  | nil => exact .nil
  | cons b rest ih =>
      rw [newlineStops]
      split
      · exact List.pairwise_cons.2 ⟨fun n hn => lt_of_mem_newlineStops hn, ih⟩
      · exact ih

/-- The lines that have begun at an offset begin after the newline bytes before it. -/
theorem takeWhile_newlineStops (k : Nat) :
    (newlineStops o bs).takeWhile (· ≤ o + k) = newlineStops o (bs.take k) := by
  induction k generalizing o bs with
  | zero =>
      rw [List.take_zero, newlineStops]
      cases hstops : newlineStops o bs with
      | nil => rfl
      | cons n rest =>
          have hn : o < n := lt_of_mem_newlineStops (hstops ▸ List.mem_cons_self)
          exact List.takeWhile_cons_of_neg (by simpa using hn)
  | succ k ih =>
      cases bs with
      | nil => rfl
      | cons b rest =>
          have hnext : o + (k + 1) = o + 1 + k := by omega
          rw [List.take_succ_cons, newlineStops, newlineStops, ← ih, hnext]
          split
          · exact List.takeWhile_cons_of_pos (by simp)
          · rfl

theorem newlineStops_take_succ (k : Nat) : newlineStops 0 (bs.take (k + 1)) =
    newlineStops 0 (bs.take k) ++ if bs[k]? = some newline then [k + 1] else [] := by
  rw [List.take_add_one, newlineStops_append]
  cases hk : bs[k]? with
  | none => rfl
  | some b =>
      obtain ⟨hlt, -⟩ := List.getElem?_eq_some_iff.1 hk
      rw [List.length_take_of_le (Nat.le_of_lt hlt), Nat.zero_add, Option.toList_some,
        newlineStops]
      simp only [Option.some.injEq, newlineStops]

/-- The last line that has begun at an offset is the line of the offset. -/
theorem isLineStart_newlineStops (bs : List UInt8) (offset : Nat) :
    IsLineStart bs offset ((newlineStops 0 (bs.take offset)).getLast?.getD 0) := by
  induction offset with
  | zero =>
      rw [List.take_zero]
      exact ⟨Nat.le_refl 0, .inl rfl, fun i _ hi => absurd hi (Nat.not_lt_zero i)⟩
  | succ k ih =>
      rw [newlineStops_take_succ]
      split
      · next hnewline =>
          rw [List.getLast?_append_of_ne_nil _ (List.cons_ne_nil _ _)]
          exact ⟨Nat.le_refl _, .inr ⟨k, rfl, hnewline⟩,
            fun i hle hlt => absurd hle (Nat.not_le_of_lt hlt)⟩
      · next hother =>
          rw [List.append_nil]
          refine ⟨Nat.le_succ_of_le ih.le, ih.after_newline, fun i hle hlt => ?_⟩
          rcases Nat.lt_succ_iff_lt_or_eq.1 hlt with hlt | rfl
          · exact ih.free i hle hlt
          · exact hother

end Bytes

end Text

/-- A position stands before another one. -/
def Position.Before (p q : Position) : Prop :=
  p.line < q.line ∨ p.line = q.line ∧ p.column < q.column

namespace LineIndex

/-- The offsets at which the lines of a text begin. -/
def starts (index : LineIndex) : List Nat := 0 :: index.later

/-- The lines of a text begin one after the other. -/
def Increasing (index : LineIndex) : Prop := index.starts.Pairwise (· < ·)

/-- The number of lines that begin after the first one and at or before an offset. -/
def linesBefore (index : LineIndex) (offset : Nat) : Nat :=
  (index.later.takeWhile (· ≤ offset)).length

/-- The beginning of the last line that begins at or before an offset. -/
def lineStart (index : LineIndex) (offset : Nat) : Nat :=
  (index.later.takeWhile (· ≤ offset)).getLast?.getD 0

/-- The offset of a position. -/
def offset? (index : LineIndex) (p : Position) : Option UInt64 :=
  index.starts[p.line - 1]?.map fun start => .ofNat start + (p.column - 1)

/-- What a search for a number among increasing ones may answer: the place where it stands, or the
place where it would have to be inserted. -/
inductive Answers (xs : List Nat) (n : Nat) : Except Nat Nat → Prop
  | found {i} (h : xs[i]? = some n) : Answers xs n (.ok i)
  | missing {i} (hi : i ≤ xs.length)
      (h : ∀ j x, xs[j]? = some x → if j < i then x < n else n < x) : Answers xs n (.error i)

/-- The difference of two numbers, if it is not negative. -/
def difference? (a b : Nat) : Option Nat := if b ≤ a then some (a - b) else none

/-- A number as a machine word, if it is not greater than all of them. -/
def word? (n : Nat) : Option UInt64 := if n < UInt64.size then some (.ofNat n) else none

/-- The position of an offset from the answer to a search for it among the beginnings of lines. It
fails where a difference is negative, there is no such line, or a sum is no machine word. -/
def positionOf? (index : LineIndex) (offset : UInt64) : Except Nat Nat → Option Position
  | .ok line => some ⟨line + 1, 1⟩
  | .error line =>
      (difference? line 1).bind fun last =>
        index.starts[last]?.bind fun start =>
          (difference? offset.toNat start).bind fun bytes =>
            (word? (bytes + 1)).map fun column => ⟨line, column⟩

/-- The bytes from the beginning of the line of an offset, counted from one, are a machine word. -/
def HasColumn (index : LineIndex) (offset : UInt64) : Prop :=
  offset.toNat - index.lineStart offset.toNat + 1 < UInt64.size

instance (index : LineIndex) (offset : UInt64) : Decidable (index.HasColumn offset) :=
  inferInstanceAs (Decidable (_ < _))

theorem difference?_of_le {a b : Nat} (h : b ≤ a) : difference? a b = some (a - b) := if_pos h

section Search

variable {index : LineIndex}

theorem lt_of_getElem? (h : index.Increasing) {i j x y : Nat} (hx : index.starts[i]? = some x)
    (hy : index.starts[j]? = some y) (hij : i < j) : x < y := by
  obtain ⟨hi, rfl⟩ := List.getElem?_eq_some_iff.1 hx
  obtain ⟨hj, rfl⟩ := List.getElem?_eq_some_iff.1 hy
  exact List.pairwise_iff_getElem.1 h i j hi hj hij

theorem getElem?_linesBefore (index : LineIndex) (offset : Nat) :
    index.starts[index.linesBefore offset]? = some (index.lineStart offset) := by
  let begun := index.later.takeWhile (· ≤ offset)
  have hprefix : (0 :: begun) <+: index.starts :=
    List.prefix_cons_inj 0 |>.2 (List.takeWhile_prefix _)
  have hlast : (0 :: begun)[begun.length]? = some (begun.getLast?.getD 0) := by
    rw [← List.getLast?_cons]
    exact (List.getLast?_eq_getElem? ..).symm
  obtain ⟨later, hlater⟩ := hprefix
  rw [← hlater, linesBefore, List.getElem?_append_left (Nat.lt_succ_self _)]
  exact hlast

theorem lineStart_le (index : LineIndex) (offset : Nat) : index.lineStart offset ≤ offset := by
  rw [lineStart]
  cases hlast : (index.later.takeWhile (· ≤ offset)).getLast? with
  | none => exact Nat.zero_le offset
  | some start =>
      have hmem := List.mem_takeWhile_imp (List.mem_of_getLast? hlast)
      simpa using hmem

/-- Just the lines up to that of an offset begin at or before it. -/
theorem le_iff_le_linesBefore (h : index.Increasing) {offset i x : Nat}
    (hx : index.starts[i]? = some x) : x ≤ offset ↔ i ≤ index.linesBefore offset := by
  have hstart := getElem?_linesBefore index offset
  have hle := lineStart_le index offset
  rcases Nat.lt_or_ge (index.linesBefore offset) i with hlt | hge
  · refine iff_of_false (Nat.not_le_of_lt ?_) (Nat.not_le_of_lt hlt)
    -- the first line that has not begun begins after the offset
    obtain ⟨next, hnext⟩ : ∃ y, index.starts[index.linesBefore offset + 1]? = some y :=
      ⟨_, List.getElem?_eq_getElem (Nat.lt_of_le_of_lt hlt (List.getElem?_eq_some_iff.1 hx).1)⟩
    have hhead : (index.later.dropWhile (· ≤ offset)).head? = some next := by
      have hsplit : index.later.takeWhile (· ≤ offset) ++ index.later.dropWhile (· ≤ offset) =
          index.later := List.takeWhile_append_dropWhile
      rw [starts, List.getElem?_cons_succ, ← hsplit, linesBefore,
        List.getElem?_append_right (Nat.le_refl _), Nat.sub_self] at hnext
      rwa [List.head?_eq_getElem?]
    have hafter : offset < next := by
      have hnot := List.head?_dropWhile_not (· ≤ offset) index.later
      rw [hhead] at hnot
      simpa using hnot
    rcases Nat.lt_or_eq_of_le hlt with hlt | heq
    · exact Nat.lt_trans hafter (lt_of_getElem? h hnext hx hlt)
    · rw [← heq] at hx
      exact Option.some.inj (hnext.symm.trans hx) ▸ hafter
  · refine iff_of_true ?_ hge
    rcases Nat.lt_or_eq_of_le hge with hlt | rfl
    · exact Nat.le_trans (Nat.le_of_lt (lt_of_getElem? h hx hstart hlt)) hle
    · exact Option.some.inj (hstart.symm.trans hx) ▸ hle

theorem eq_linesBefore_of_found (h : index.Increasing) {offset i : Nat}
    (hfound : index.starts[i]? = some offset) : i = index.linesBefore offset := by
  refine Nat.le_antisymm ((le_iff_le_linesBefore h hfound).1 (Nat.le_refl _)) ?_
  exact Nat.le_of_not_lt fun hlt => Nat.not_lt_of_le (lineStart_le index offset)
    (lt_of_getElem? h hfound (getElem?_linesBefore index offset) hlt)

/-- An offset that is no beginning of a line would be inserted just behind that of its line. -/
theorem eq_linesBefore_of_missing (h : index.Increasing) {offset i : Nat}
    (hi : i ≤ index.starts.length)
    (hsearch : ∀ j x, index.starts[j]? = some x → if j < i then x < offset else offset < x) :
    i = index.linesBefore offset + 1 := by
  refine Nat.le_antisymm (Nat.le_of_not_lt fun hlt => ?_) (Nat.lt_of_not_le fun hle => ?_)
  · have hnext := List.getElem?_eq_getElem (Nat.lt_of_lt_of_le hlt hi)
    have hafter := hsearch _ _ hnext
    rw [if_pos hlt] at hafter
    exact Nat.not_succ_le_self _ ((le_iff_le_linesBefore h hnext).1 (Nat.le_of_lt hafter))
  · have hafter := hsearch _ _ (getElem?_linesBefore index offset)
    rw [if_neg (Nat.not_lt_of_le hle)] at hafter
    exact Nat.not_lt_of_le (lineStart_le index offset) hafter

/-- A search has an answer: the line of the offset, or the one after it. -/
theorem exists_answers (h : index.Increasing) (offset : Nat) :
    ∃ answer, Answers index.starts offset answer := by
  have hstart := getElem?_linesBefore index offset
  rcases Nat.lt_or_eq_of_le (lineStart_le index offset) with hlt | heq
  · refine ⟨.error (index.linesBefore offset + 1), .missing ?_ fun j x hx => ?_⟩
    · exact (List.getElem?_eq_some_iff.1 hstart).1
    · split
      · next hj =>
          rcases Nat.lt_succ_iff_lt_or_eq.1 hj with hj | rfl
          · exact Nat.lt_trans (lt_of_getElem? h hx hstart hj) hlt
          · exact Option.some.inj (hstart.symm.trans hx) ▸ hlt
      · next hj => exact Nat.lt_of_not_le fun hx' => hj (Nat.lt_succ_of_le
          ((le_iff_le_linesBefore h hx).1 hx'))
  · rw [heq] at hstart
    exact ⟨_, .found hstart⟩

end Search

section Words

variable {index : LineIndex} {offset : UInt64}

theorem position_eq (index : LineIndex) (offset : UInt64) :
    index.position offset = ⟨index.linesBefore offset.toNat + 1,
      offset - .ofNat (index.lineStart offset.toNat) + 1⟩ := rfl

/-- The bytes from the beginning of a line to an offset are a machine word. -/
theorem toNat_sub_lineStart (index : LineIndex) (offset : UInt64) :
    (offset - .ofNat (index.lineStart offset.toNat)).toNat =
      offset.toNat - index.lineStart offset.toNat := by
  have hle := lineStart_le index offset.toNat
  have hstart : (UInt64.ofNat (index.lineStart offset.toNat)).toNat =
      index.lineStart offset.toNat :=
    UInt64.toNat_ofNat_of_lt' (Nat.lt_of_le_of_lt hle offset.toNat_lt)
  rw [UInt64.toNat_sub_of_le _ _ (UInt64.le_iff_toNat_le.2 (hstart.symm ▸ hle)), hstart]

theorem HasColumn.toNat_column (h : index.HasColumn offset) :
    (index.position offset).column.toNat =
      offset.toNat - index.lineStart offset.toNat + 1 := by
  rw [position_eq, UInt64.toNat_add, toNat_sub_lineStart]
  exact Nat.mod_eq_of_lt h

/-- Where there is no column, the words wrap around. -/
theorem column_eq_zero (h : ¬ index.HasColumn offset) : (index.position offset).column = 0 := by
  have hlt : offset.toNat < UInt64.size := offset.toNat_lt
  have hsize : offset.toNat - index.lineStart offset.toNat + 1 = UInt64.size := by
    rw [HasColumn] at h
    omega
  apply UInt64.toNat_inj.1
  rw [position_eq, UInt64.toNat_add, toNat_sub_lineStart, UInt64.toNat_one, hsize]
  rfl

theorem word?_column (index : LineIndex) (offset : UInt64) :
    word? (offset.toNat - index.lineStart offset.toNat + 1) =
      if index.HasColumn offset then some (index.position offset).column else none := by
  by_cases h : index.HasColumn offset
  · rw [if_pos h, ← h.toNat_column, word?, if_pos (UInt64.toNat_lt _), UInt64.ofNat_toNat]
  · rw [if_neg h]
    exact if_neg h

/-- Whatever a search answers, the position of an offset is found from it, unless it has no
column. -/
theorem positionOf?_eq (h : index.Increasing) {answer : Except Nat Nat}
    (hanswer : Answers index.starts offset.toNat answer) :
    index.positionOf? offset answer =
      if index.HasColumn offset then some (index.position offset) else none := by
  have hstart := getElem?_linesBefore index offset.toNat
  have hle := lineStart_le index offset.toNat
  cases hanswer with
  | found hfound =>
      obtain rfl := eq_linesBefore_of_found h hfound
      have heq : index.lineStart offset.toNat = offset.toNat :=
        Option.some.inj (hstart.symm.trans hfound)
      have hcolumn : index.HasColumn offset := by
        rw [HasColumn, heq, Nat.sub_self]
        decide
      rw [if_pos hcolumn, positionOf?, position_eq, heq, UInt64.ofNat_toNat, UInt64.sub_self]
      rfl
  | missing hi hsearch =>
      obtain rfl := eq_linesBefore_of_missing h hi hsearch
      rw [positionOf?, difference?_of_le (Nat.le_add_left 1 _), Option.bind_some,
        Nat.add_sub_cancel, hstart, Option.bind_some, difference?_of_le hle, Option.bind_some,
        word?_column]
      split <;> rfl

/-- Later offsets have later positions, if they have a column. -/
theorem before_of_lt (h : index.Increasing) {a b : UInt64} (hab : a < b)
    (ha : index.HasColumn a) (hb : index.HasColumn b) :
    (index.position a).Before (index.position b) := by
  have hab : a.toNat < b.toNat := UInt64.lt_iff_toNat_lt.1 hab
  have hstart := getElem?_linesBefore index a.toNat
  have hle := lineStart_le index a.toNat
  have hlines : index.linesBefore a.toNat ≤ index.linesBefore b.toNat :=
    (le_iff_le_linesBefore h hstart).1 (Nat.le_trans hle (Nat.le_of_lt hab))
  rcases Nat.lt_or_eq_of_le hlines with hlt | heq
  · exact .inl (Nat.succ_lt_succ hlt)
  · have hstart' := getElem?_linesBefore index b.toNat
    rw [← heq, hstart, Option.some.injEq] at hstart'
    refine .inr ⟨congrArg (· + 1) heq, UInt64.lt_iff_toNat_lt.2 ?_⟩
    rw [ha.toNat_column, hb.toNat_column, ← hstart']
    omega

/-- The offset of a position can be told from the beginning of its line. -/
theorem offset?_position (index : LineIndex) (offset : UInt64) :
    index.offset? (index.position offset) = some offset := by
  have hstart := getElem?_linesBefore index offset.toNat
  rw [position_eq, offset?]
  simp only [Nat.add_sub_cancel, hstart, Option.map_some, UInt64.add_sub_cancel]
  rw [UInt64.add_comm, UInt64.sub_add_cancel]

end Words

section Texts

variable (text : String)

theorem later_ofText : (ofText text).later = Text.newlineStops 0 (Text.bytes text) := by
  rw [ofText, Text.lineStarts_eq, Text.bytes_eq]

theorem increasing_ofText : (ofText text).Increasing := by
  rw [Increasing, starts, later_ofText]
  exact List.pairwise_cons.2
    ⟨fun n hn => Text.lt_of_mem_newlineStops hn, Text.pairwise_newlineStops⟩

theorem takeWhile_later_ofText (offset : Nat) :
    (ofText text).later.takeWhile (· ≤ offset) =
      Text.newlineStops 0 ((Text.bytes text).take offset) := by
  have hbegun : (Text.newlineStops 0 (Text.bytes text)).takeWhile (· ≤ 0 + offset) =
      Text.newlineStops 0 ((Text.bytes text).take offset) := Text.takeWhile_newlineStops offset
  rw [Nat.zero_add] at hbegun
  rw [later_ofText, hbegun]

theorem linesBefore_ofText (offset : Nat) : (ofText text).linesBefore offset =
    ((Text.bytes text).take offset).count Text.newline := by
  rw [linesBefore, takeWhile_later_ofText, Text.length_newlineStops]

theorem isLineStart_lineStart (offset : Nat) :
    Text.IsLineStart (Text.bytes text) offset ((ofText text).lineStart offset) := by
  rw [lineStart, takeWhile_later_ofText]
  exact Text.isLineStart_newlineStops _ offset

/-- An offset without a column: the greatest one, if no line has ended before it. -/
def IsBeyondColumns (text : String) (offset : UInt64) : Prop :=
  offset.toNat + 1 = UInt64.size ∧ Text.newline ∉ (Text.bytes text).take offset.toNat

instance (text : String) (offset : UInt64) : Decidable (IsBeyondColumns text offset) :=
  inferInstanceAs (Decidable (_ ∧ _))

/-- Every other offset has a column. -/
theorem hasColumn_ofText_iff (offset : UInt64) :
    (ofText text).HasColumn offset ↔ ¬ IsBeyondColumns text offset := by
  have hlt : offset.toNat < UInt64.size := offset.toNat_lt
  have hline := isLineStart_lineStart text offset.toNat
  have hstart : (ofText text).lineStart offset.toNat = 0 ↔
      Text.newline ∉ (Text.bytes text).take offset.toNat := by
    constructor
    · intro h hmem
      obtain ⟨i, hi⟩ := List.mem_iff_getElem?.1 hmem
      rw [List.getElem?_take, Option.ite_none_right_eq_some] at hi
      exact hline.free i (h ▸ Nat.zero_le i) hi.1 hi.2
    · intro h
      rw [lineStart, takeWhile_later_ofText, Text.newlineStops_eq_nil h]
      rfl
  rw [HasColumn, IsBeyondColumns, ← hstart]
  have hle := hline.le
  omega

end Texts

end LineIndex

end DatalogPolicy
