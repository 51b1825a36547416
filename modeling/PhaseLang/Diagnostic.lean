import PhaseLang.Position

/-!
# Diagnostics

A diagnostic is a message at a position. Stages hand their diagnostics on in the
order in which they arise. A `Log` keeps them; a `Relay` is a log behind a row of
counters, each of which counts what passes it on the way to the log.
-/

namespace PhaseLang

structure Diagnostic where
  pos : Position
  message : String
deriving DecidableEq, Repr, Inhabited

structure Log where
  entries : List Diagnostic := []
deriving DecidableEq, Repr, Inhabited

namespace Log

def report (log : Log) (d : Diagnostic) : Log := ⟨log.entries ++ [d]⟩

def reportAll (log : Log) (ds : List Diagnostic) : Log := ⟨log.entries ++ ds⟩

def count (log : Log) : Nat := log.entries.length

def hasErrors (log : Log) : Bool := !log.entries.isEmpty

def messages (log : Log) : List String := log.entries.map (·.message)

def take (log : Log) : List Diagnostic × Log := (log.entries, {})

end Log

/-- A log behind counters; the first counter stands next to the log. -/
structure Relay where
  log : Log := {}
  counts : List Nat := []
deriving Repr, Inhabited

namespace Relay

/-- A fresh log behind `n` counters. -/
def behind (n : Nat) : Relay := ⟨{}, List.replicate n 0⟩

def report (relay : Relay) (n : Nat) (d : Diagnostic) : Relay :=
  ⟨relay.log.report d, (relay.counts.take n).map (· + 1) ++ relay.counts.drop n⟩

def count (relay : Relay) (i : Nat) : Nat := relay.counts.getD i 0

/-- Empties the log; the counters keep their counts. -/
def take (relay : Relay) : List Diagnostic × Relay :=
  let (entries, log) := relay.log.take
  (entries, { relay with log })

end Relay

end PhaseLang
