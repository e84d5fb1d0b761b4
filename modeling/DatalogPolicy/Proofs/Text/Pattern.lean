import DatalogPolicy.Text.Pattern

/-!
# Patterns accept texts

The derivative of a pattern accepts what is left of the texts that the pattern
accepts, so the longest front that is found is the longest one that is accepted.
-/

namespace DatalogPolicy.Pattern

variable {p q : Pattern} {c : Char} {cs ds : List Char} {n : Nat}

@[simp] theorem matches_never : ¬ Matches .never cs := nofun

@[simp] theorem matches_empty : Matches .empty cs ↔ cs = [] := by
  constructor
  · rintro ⟨⟩
    rfl
  · rintro rfl
    exact .empty

theorem matches_one {accepts : Char → Bool} :
    Matches (.one accepts) cs ↔ ∃ c, accepts c = true ∧ cs = [c] := by
  constructor
  · rintro ⟨⟩
    exact ⟨_, ‹_›, rfl⟩
  · rintro ⟨c, h, rfl⟩
    exact .one h

@[simp] theorem matches_either :
    Matches (.either p q) cs ↔ Matches p cs ∨ Matches q cs := by
  constructor
  · intro h
    cases h with
    | first h => exact .inl h
    | second h => exact .inr h
  · rintro (h | h)
    · exact .first h
    · exact .second h

theorem matches_sequence :
    Matches (.sequence p q) cs ↔ ∃ a b, cs = a ++ b ∧ Matches p a ∧ Matches q b := by
  constructor
  · rintro ⟨⟩
    exact ⟨_, _, rfl, ‹_›, ‹_›⟩
  · rintro ⟨a, b, rfl, ha, hb⟩
    exact .sequence ha hb

/-- A repetition is empty or begins with a text that is not. -/
theorem matches_many :
    Matches (.many p) cs ↔
      cs = [] ∨ ∃ c a b, cs = c :: (a ++ b) ∧ Matches p (c :: a) ∧ Matches (.many p) b := by
  constructor
  · intro h
    generalize hm : Pattern.many p = m at h
    induction h with
    | empty | one | first | second | sequence => cases hm
    | none => exact .inl rfl
    | @more p' a b ha hb _ ih =>
        cases hm
        cases a with
        | nil => exact ih rfl
        | cons c a => exact .inr ⟨c, a, b, rfl, ha, hb⟩
  · rintro (rfl | ⟨c, a, b, rfl, ha, hb⟩)
    · exact .none
    · exact .more ha hb

theorem acceptsEmpty_iff (p : Pattern) : p.acceptsEmpty = true ↔ Matches p [] := by
  induction p with
  | never => simp [acceptsEmpty]
  | empty => simp [acceptsEmpty]
  | one accepts => simp [acceptsEmpty, matches_one]
  | either p q hp hq => rw [acceptsEmpty, Bool.or_eq_true, hp, hq, matches_either]
  | sequence p q hp hq =>
      rw [acceptsEmpty, Bool.and_eq_true, hp, hq, matches_sequence]
      constructor
      · rintro ⟨ha, hb⟩
        exact ⟨[], [], rfl, ha, hb⟩
      · rintro ⟨a, b, hab, ha, hb⟩
        obtain ⟨rfl, rfl⟩ := List.append_eq_nil_iff.1 hab.symm
        exact ⟨ha, hb⟩
  | many p _ => exact iff_of_true rfl .none

theorem matches_orElse : Matches (p.orElse q) cs ↔ Matches p cs ∨ Matches q cs := by
  unfold orElse
  split <;> simp

theorem matches_followedBy :
    Matches (p.followedBy q) cs ↔ ∃ a b, cs = a ++ b ∧ Matches p a ∧ Matches q b := by
  unfold followedBy
  split
  · simp
  · constructor
    · intro h
      exact ⟨[], cs, rfl, .empty, h⟩
    · rintro ⟨a, b, rfl, ha, hb⟩
      rwa [matches_empty.1 ha]
  · exact matches_sequence

/-- The derivative accepts what may follow a character in an accepted text. -/
theorem matches_derivative (p : Pattern) :
    Matches (p.derivative c) cs ↔ Matches p (c :: cs) := by
  induction p generalizing cs with
  | never => simp [derivative]
  | empty => simp [derivative]
  | one accepts =>
      rw [derivative, matches_one]
      constructor
      · intro h
        split at h
        · next hc => exact ⟨c, hc, by rw [matches_empty.1 h]⟩
        · exact absurd h matches_never
      · rintro ⟨d, hd, heq⟩
        cases heq
        rw [if_pos hd]
        exact .empty
  | either p q hp hq => rw [derivative, matches_orElse, hp, hq, matches_either]
  | sequence p q hp hq =>
      have hrest : Matches ((p.derivative c).followedBy q) cs ↔
          ∃ a b, cs = a ++ b ∧ Matches p (c :: a) ∧ Matches q b := by
        simp only [matches_followedBy, hp]
      rw [derivative, matches_sequence]
      constructor
      · intro h
        by_cases hempty : p.acceptsEmpty = true
        · rw [if_pos hempty, matches_orElse, hrest, hq] at h
          rcases h with ⟨a, b, rfl, ha, hb⟩ | h
          · exact ⟨c :: a, b, rfl, ha, hb⟩
          · exact ⟨[], c :: cs, rfl, (acceptsEmpty_iff p).1 hempty, h⟩
        · rw [if_neg hempty, hrest] at h
          obtain ⟨a, b, rfl, ha, hb⟩ := h
          exact ⟨c :: a, b, rfl, ha, hb⟩
      · rintro ⟨a, b, hab, ha, hb⟩
        cases a with
        | nil =>
            rw [if_pos ((acceptsEmpty_iff p).2 ha), matches_orElse, hq]
            rw [List.nil_append] at hab
            exact .inr (hab ▸ hb)
        | cons d a =>
            cases hab
            have h := hrest.2 ⟨a, b, rfl, ha, hb⟩
            split
            · exact matches_orElse.2 (.inl h)
            · exact h
  | many p hp =>
      rw [derivative, matches_followedBy, matches_many]
      simp only [hp, List.cons_ne_nil, false_or, List.cons.injEq]
      constructor
      · rintro ⟨a, b, rfl, ha, hb⟩
        exact ⟨c, a, b, ⟨rfl, rfl⟩, ha, hb⟩
      · rintro ⟨_, a, b, ⟨rfl, rfl⟩, ha, hb⟩
        exact ⟨a, b, rfl, ha, hb⟩

/-- The front with `n` characters is the longest one that a pattern accepts. -/
structure IsLongest (p : Pattern) (cs : List Char) (n : Nat) : Prop where
  le : n ≤ cs.length
  accepted : Matches p (cs.take n)
  longest : ∀ m, m ≤ cs.length → Matches p (cs.take m) → m ≤ n

theorem IsLongest.unique {m : Nat} (hn : IsLongest p cs n) (hm : IsLongest p cs m) : n = m :=
  Nat.le_antisymm (hm.longest n hn.le hn.accepted) (hn.longest m hm.le hm.accepted)

theorem longest?_cons (p : Pattern) (c : Char) (rest : List Char) :
    p.longest? (c :: rest) =
      match (p.derivative c).longest? rest with
      | some n => some (n + 1)
      | none => if p.acceptsEmpty then some 0 else none := by
  rw [longest?]
  split
  · next h =>
      have hp : p = .never := by
        cases p <;> first | rfl | cases h
      have hnever : Pattern.never.longest? rest = none := by cases rest <;> rfl
      rw [hp, derivative, hnever]
      rfl
  · rfl

/-- The longest front that is found is the longest one that is accepted; if none is found, none
is accepted. -/
theorem longest?_spec (p : Pattern) (cs : List Char) :
    (∀ n, p.longest? cs = some n → IsLongest p cs n) ∧
      (p.longest? cs = none → ∀ m, ¬ Matches p (cs.take m)) := by
  induction cs generalizing p with
  | nil =>
      rw [longest?]
      refine ⟨fun n hn => ?_, fun hnone m hmatch => ?_⟩
      · obtain ⟨hempty, hzero⟩ := Option.ite_none_right_eq_some.1 hn
        cases hzero
        exact ⟨Nat.le_refl 0, (acceptsEmpty_iff p).1 hempty, fun m hm _ => hm⟩
      · rw [List.take_nil, ← acceptsEmpty_iff] at hmatch
        simp [hmatch] at hnone
  | cons c rest ih =>
      obtain ⟨hsome, hnone⟩ := ih (p.derivative c)
      rw [longest?_cons]
      cases hlongest : (p.derivative c).longest? rest with
      | some n =>
          obtain ⟨hle, haccepted, hmax⟩ := hsome n hlongest
          refine ⟨fun k hk => ?_, nofun⟩
          cases hk
          refine ⟨Nat.succ_le_succ hle, (matches_derivative p).1 haccepted, fun m hm hmatch => ?_⟩
          cases m with
          | zero => exact Nat.zero_le _
          | succ m =>
              exact Nat.succ_le_succ
                (hmax m (Nat.le_of_succ_le_succ hm) ((matches_derivative p).2 hmatch))
      | none =>
          have hfail (m : Nat) : ¬ Matches p (c :: rest.take m) := fun hmatch =>
            hnone hlongest m ((matches_derivative p).2 hmatch)
          refine ⟨fun k hk => ?_, fun h m hmatch => ?_⟩
          · obtain ⟨hempty, hzero⟩ := Option.ite_none_right_eq_some.1 hk
            cases hzero
            refine ⟨Nat.zero_le _, (acceptsEmpty_iff p).1 hempty, fun m _ hmatch => ?_⟩
            cases m with
            | zero => exact Nat.le_refl 0
            | succ m => exact absurd hmatch (hfail m)
          · cases m with
            | zero =>
                have hempty := (acceptsEmpty_iff p).2 hmatch
                simp [hempty] at h
            | succ m => exact hfail m hmatch

theorem longest?_eq_some_iff : p.longest? cs = some n ↔ IsLongest p cs n := by
  obtain ⟨hsome, hnone⟩ := longest?_spec p cs
  refine ⟨hsome n, fun h => ?_⟩
  cases hlongest : p.longest? cs with
  | some m => rw [(hsome m hlongest).unique h]
  | none => exact absurd h.accepted (hnone hlongest n)

theorem longest?_eq_none_iff : p.longest? cs = none ↔ ∀ m, ¬ Matches p (cs.take m) := by
  obtain ⟨hsome, hnone⟩ := longest?_spec p cs
  refine ⟨hnone, fun h => ?_⟩
  cases hlongest : p.longest? cs with
  | some m => exact absurd (hsome m hlongest).accepted (h m)
  | none => rfl

section Languages

variable {accepts : Char → Bool}

@[simp] theorem matches_char : Matches (.char c) cs ↔ cs = [c] := by
  rw [char, matches_one]
  constructor
  · rintro ⟨d, hd, rfl⟩
    rw [of_decide_eq_true hd]
  · rintro rfl
    exact ⟨c, decide_eq_true rfl, rfl⟩

@[simp] theorem matches_exactly {word : List Char} : Matches (.exactly word) cs ↔ cs = word := by
  induction word generalizing cs with
  | nil => exact matches_empty
  | cons c rest ih =>
      cases rest with
      | nil => exact matches_char
      | cons d rest =>
          rw [exactly, matches_sequence]
          simp only [matches_char, ih]
          constructor
          · rintro ⟨a, b, rfl, rfl, rfl⟩
            rfl
          · rintro rfl
            exact ⟨[c], d :: rest, rfl, rfl, rfl⟩
          · nofun

@[simp] theorem matches_many_one :
    Matches (.many (.one accepts)) cs ↔ ∀ c ∈ cs, accepts c = true := by
  induction cs with
  | nil => exact iff_of_true .none nofun
  | cons c rest ih =>
      rw [matches_many, List.forall_mem_cons, ← ih]
      constructor
      · rintro (h | ⟨d, a, b, heq, ha, hb⟩)
        · cases h
        · obtain ⟨d', hd, hda⟩ := matches_one.1 ha
          cases heq
          cases hda
          exact ⟨hd, hb⟩
      · rintro ⟨hc, hrest⟩
        exact .inr ⟨c, [], rest, rfl, .one hc, hrest⟩

@[simp] theorem matches_repeated :
    Matches (.repeated accepts) cs ↔ cs ≠ [] ∧ ∀ c ∈ cs, accepts c = true := by
  rw [repeated, matches_sequence]
  constructor
  · rintro ⟨a, b, rfl, ha, hb⟩
    obtain ⟨c, hc, rfl⟩ := matches_one.1 ha
    exact ⟨nofun, List.forall_mem_cons.2 ⟨hc, matches_many_one.1 hb⟩⟩
  · rintro ⟨hne, h⟩
    cases cs with
    | nil => exact absurd rfl hne
    | cons c rest =>
        obtain ⟨hc, hrest⟩ := List.forall_mem_cons.1 h
        exact ⟨[c], rest, rfl, .one hc, matches_many_one.2 hrest⟩

@[simp] theorem matches_optional : Matches (.optional p) cs ↔ Matches p cs ∨ cs = [] := by
  rw [optional, matches_either, matches_empty]

end Languages

section Characters

/-- The characters with which an accepted text may begin. -/
def first : Pattern → Char → Bool
  | never, _ | empty, _ => false
  | one accepts, c => accepts c
  | either p q, c => p.first c || q.first c
  | sequence p q, c => p.first c || p.acceptsEmpty && q.first c
  | many p, c => p.first c

/-- The characters that an accepted text may contain. -/
def uses : Pattern → Char → Bool
  | never, _ | empty, _ => false
  | one accepts, c => accepts c
  | either p q, c | sequence p q, c => p.uses c || q.uses c
  | many p, c => p.uses c

theorem first_of_matches (h : Matches p (c :: cs)) : p.first c = true := by
  induction p generalizing cs with
  | never => exact absurd h matches_never
  | empty => exact absurd (matches_empty.1 h) (List.cons_ne_nil _ _)
  | one accepts =>
      obtain ⟨d, hd, heq⟩ := matches_one.1 h
      cases heq
      exact hd
  | either p q hp hq =>
      rw [first, Bool.or_eq_true]
      exact (matches_either.1 h).imp hp hq
  | sequence p q hp hq =>
      rw [first, Bool.or_eq_true, Bool.and_eq_true]
      obtain ⟨a, b, heq, ha, hb⟩ := matches_sequence.1 h
      cases a with
      | nil =>
          obtain rfl : c :: cs = b := heq
          exact .inr ⟨(acceptsEmpty_iff p).2 ha, hq hb⟩
      | cons d a =>
          cases heq
          exact .inl (hp ha)
  | many p hp =>
      rcases matches_many.1 h with hnil | ⟨d, a, b, heq, ha, hb⟩
      · cases hnil
      · cases heq
        exact hp ha

/-- What follows an accepted text does not decide how it begins. -/
theorem first_of_mem_head {rest : List Char} (hempty : p.acceptsEmpty = false) (h : Matches p cs) :
    ∀ d ∈ (cs ++ rest).head?, p.first d = true := by
  cases cs with
  | nil => exact absurd ((acceptsEmpty_iff p).2 h) (Bool.eq_false_iff.1 hempty)
  | cons c cs =>
      rintro d ⟨⟩
      exact first_of_matches h

theorem uses_of_matches (h : Matches p cs) : ∀ c ∈ cs, p.uses c = true := by
  induction h with
  | empty | none => nofun
  | one h => exact List.forall_mem_singleton.2 h
  | first _ ih => exact fun c hc => by rw [uses, ih c hc, Bool.true_or]
  | second _ ih => exact fun c hc => by rw [uses, ih c hc, Bool.or_true]
  | sequence _ _ ih₁ ih₂ =>
      refine List.forall_mem_append.2 ⟨fun c hc => ?_, fun c hc => ?_⟩
      · rw [uses, ih₁ c hc, Bool.true_or]
      · rw [uses, ih₂ c hc, Bool.or_true]
  | more _ _ ih₁ ih₂ => exact List.forall_mem_append.2 ⟨ih₁, ih₂⟩

/-- What may follow some characters in an accepted text. -/
def derivatives (p : Pattern) (cs : List Char) : Pattern :=
  cs.foldl (fun p c => p.derivative c) p

theorem matches_derivatives : Matches (p.derivatives cs) ds ↔ Matches p (cs ++ ds) := by
  induction cs generalizing p with
  | nil => exact Iff.rfl
  | cons c rest ih => exact ih.trans (matches_derivative p)

theorem acceptsEmpty_derivatives : (p.derivatives cs).acceptsEmpty = true ↔ Matches p cs := by
  rw [acceptsEmpty_iff, matches_derivatives, List.append_nil]

instance (p : Pattern) (cs : List Char) : Decidable (Matches p cs) :=
  decidable_of_iff _ acceptsEmpty_derivatives

end Characters

end DatalogPolicy.Pattern
