import Bundler.Json.Bounds
import Bundler.Program.Pass

/-!
# The limits of a host

How many digits a whole number may have is set for the program as a whole. How many values may stand one within the
other depends on what the callers have left of the stack, so it is another number at every place: where the answer of
a pass is read, where it is shown in messages, and where a report is written. The deepest of these places is the one
where an answer is read.
-/

namespace Bundler

/-- How much of an answer can be read where it is read, and how much of it can be shown there: the reader takes more
of the stack for itself, so whatever is read can be shown. -/
structure Answer.Limits where
  digits : Option Nat
  reading : Nat
  showing : Nat
  shows : reading ≤ showing

namespace Answer.Limits

def toRead (l : Limits) : Json.Bounds :=
  ⟨l.digits, l.reading⟩

def toShow (l : Limits) : Json.Bounds :=
  ⟨l.digits, l.showing⟩

end Answer.Limits

/-- The limits of a host. -/
structure Limits where
  digits : Option Nat
  /-- The levels for reading the answer of a pass. -/
  reading : Pass → Nat
  /-- The levels for showing a part of it. -/
  showing : Pass → Nat
  /-- The levels for writing the report of a run. -/
  report : Nat
  /-- The levels for writing what a watcher tells. -/
  event : Nat
  shows : ∀ p, reading p ≤ showing p
  reports : ∀ p, reading p ≤ report
  /-- The report stands in an object of its own. -/
  tells : ∀ p, reading p < event
  /-- A report takes four levels even if none of it is from an answer. -/
  reads : ∀ p, 4 ≤ reading p

namespace Limits

/-- The limits of a stack of a thousand levels. -/
def standard : Limits where
  digits := some 4300
  reading _ := 960
  showing _ := 965
  report := 970
  event := 970
  shows _ := by decide
  reports _ := by decide
  tells _ := by decide
  reads _ := by decide

/-- The limits for the answer of a pass. -/
def answer (l : Limits) (p : Pass) : Answer.Limits :=
  ⟨l.digits, l.reading p, l.showing p, l.shows p⟩

def toReport (l : Limits) : Json.Bounds :=
  ⟨l.digits, l.report⟩

def toTell (l : Limits) : Json.Bounds :=
  ⟨l.digits, l.event⟩

end Limits

end Bundler
