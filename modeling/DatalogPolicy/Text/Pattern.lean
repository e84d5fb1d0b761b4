/-!
# Patterns

Regular patterns over characters. A text is matched by consuming its characters
one by one: `derivative p c` accepts what may follow `c` in a text that `p`
accepts. `longest?` finds the longest front of a text that a pattern accepts.
-/

namespace DatalogPolicy

/-- A regular pattern. -/
inductive Pattern
  | never
  | empty
  | one (accepts : Char → Bool)
  | either (first second : Pattern)
  | sequence (first second : Pattern)
  | many (each : Pattern)

namespace Pattern

/-- The texts that a pattern accepts. -/
inductive Matches : Pattern → List Char → Prop
  | empty : Matches .empty []
  | one {accepts c} (h : accepts c = true) : Matches (.one accepts) [c]
  | first {p q cs} (h : Matches p cs) : Matches (.either p q) cs
  | second {p q cs} (h : Matches q cs) : Matches (.either p q) cs
  | sequence {p q cs ds} (h : Matches p cs) (k : Matches q ds) : Matches (.sequence p q) (cs ++ ds)
  | none {p} : Matches (.many p) []
  | more {p cs ds} (h : Matches p cs) (k : Matches (.many p) ds) : Matches (.many p) (cs ++ ds)

/-- Whether a pattern accepts the empty text. -/
def acceptsEmpty : Pattern → Bool
  | never => false
  | empty => true
  | one _ => false
  | either p q => p.acceptsEmpty || q.acceptsEmpty
  | sequence p q => p.acceptsEmpty && q.acceptsEmpty
  | many _ => true

/-- One pattern or the other, simplified where one of them accepts nothing. -/
def orElse : Pattern → Pattern → Pattern
  | never, q => q
  | p, never => p
  | p, q => either p q

/-- One pattern followed by another, simplified where the first is trivial. -/
def followedBy : Pattern → Pattern → Pattern
  | never, _ => never
  | empty, q => q
  | p, q => sequence p q

/-- What may follow a character in an accepted text. -/
def derivative (c : Char) : Pattern → Pattern
  | never => never
  | empty => never
  | one accepts => if accepts c then empty else never
  | either p q => (p.derivative c).orElse (q.derivative c)
  | sequence p q =>
      let rest := (p.derivative c).followedBy q
      if p.acceptsEmpty then rest.orElse (q.derivative c) else rest
  | many p => (p.derivative c).followedBy (many p)

/-- Whether a pattern is the one that accepts nothing. -/
def isNever : Pattern → Bool
  | never => true
  | _ => false

/-- The length of the longest front of a text that a pattern accepts. -/
def longest? (p : Pattern) : List Char → Option Nat
  | [] => if p.acceptsEmpty then some 0 else none
  | c :: rest =>
      if p.isNever then none
      else
        match (p.derivative c).longest? rest with
        | some n => some (n + 1)
        | none => if p.acceptsEmpty then some 0 else none

/-- A single character. -/
def char (c : Char) : Pattern := one (· = c)

/-- Exactly the given characters. -/
def exactly : List Char → Pattern
  | [] => empty
  | [c] => char c
  | c :: rest => sequence (char c) (exactly rest)

/-- At least one of the given characters. -/
def repeated (accepts : Char → Bool) : Pattern := sequence (one accepts) (many (one accepts))

/-- The pattern or nothing. -/
def optional (p : Pattern) : Pattern := either p empty

end Pattern

end DatalogPolicy
