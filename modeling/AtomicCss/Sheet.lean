import AtomicCss.OrderedSet
import AtomicCss.Text

/-!
# Sheets

What rules are written to. A synthetic sheet collects texts, each once, in the order of their first
insertion. A host's sink is known only by its answers: it may refuse any insertion, and its answer
may depend on all insertions attempted before. The attempts are kept, so what a sink has taken can
be told.
-/

namespace AtomicCss

/-- Why a sheet does not take a rule. -/
inductive Refusal
  /-- There is no style sheet to write to. -/
  | unavailable (reason : String)
  /-- The style sheet does not take this rule. -/
  | rejected (rule message : String)
deriving DecidableEq

/-- The refusal in words. -/
def Refusal.message : Refusal → String
  | unavailable reason => "Stylesheet unavailable: " ++ reason
  | rejected rule message => "Failed to insert rule '" ++ rule ++ "': " ++ message

/-- An insertion attempted at a sink, and its refusal if it was refused. -/
structure Attempt where
  rule : String
  index : Nat
  refusal : Option Refusal
deriving DecidableEq

/-- A host's sink: its answer to an insertion after all earlier attempts, and these attempts. -/
structure Host where
  verdict : (earlier : List Attempt) → (rule : String) → (index : Nat) → Option Refusal
  attempts : List Attempt

namespace Host

def accepting : Host := ⟨fun _ _ _ => none, []⟩

/-- A sink whose answer depends on the rule alone. -/
def ofVerdict (verdict : (rule : String) → Option Refusal) : Host :=
  ⟨fun _ rule _ => verdict rule, []⟩

/-- The sink after an insertion, and the refusal if there is one. -/
def insert (h : Host) (rule : String) (index : Nat) : Host × Option Refusal :=
  let refusal := h.verdict h.attempts rule index
  ({ h with attempts := h.attempts ++ [⟨rule, index, refusal⟩] }, refusal)

/-- The rules taken, each with its index, in order. -/
def accepted (h : Host) : List (String × Nat) :=
  (h.attempts.filter fun a => a.refusal.isNone).map fun a => (a.rule, a.index)

end Host

/-- What rules are written to. -/
inductive Sheet
  | synthetic (rules : OrderedSet)
  | host (sink : Host)

namespace Sheet

def empty : Sheet := .synthetic OrderedSet.empty

instance : Inhabited Sheet := ⟨empty⟩

def isSynthetic : Sheet → Bool
  | synthetic _ => true
  | host _ => false

def rules? : Sheet → Option OrderedSet
  | synthetic rules => some rules
  | host _ => none

/-- The sheet's text: the rules of a synthetic sheet, one a line. A host's text is not known. -/
def contents : Sheet → String
  | synthetic rules => "\n".intercalate rules.items
  | host _ => ""

/-- Whether the sheet is synthetic and lacks a rule. -/
def lacks : Sheet → String → Bool
  | synthetic rules, rule => !rules.contains rule
  | host _, _ => false

/-- The sheet after an insertion, and the refusal if there is one. A synthetic sheet takes every
rule and does not heed the index. -/
def insert (s : Sheet) (rule : String) (index : Nat) : Sheet × Option Refusal :=
  match s with
  | synthetic rules => (.synthetic (rules.insert rule), none)
  | host sink => (.host (sink.insert rule index).1, (sink.insert rule index).2)

/-- A short text that shows what a sheet is and, if it is synthetic, its rules in quotes. -/
def describe : Sheet → String
  | synthetic rules =>
    "Synthetic(SyntheticStyleSheet \x7b rules: \x7b" ++
      ", ".intercalate (rules.items.map Text.quoted) ++ "\x7d \x7d)"
  | host _ => "Host"

end Sheet

end AtomicCss
