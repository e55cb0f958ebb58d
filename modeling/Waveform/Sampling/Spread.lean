import Waveform.Formula.Program
import Waveform.Options

/-!
# Series on several processors

A long series is cut into pieces, the pieces are mapped apart from each other, and their values are
put back in the order of the pieces. Where it is cut depends on the machine and its load, so the cut
is a parameter here. No value depends on it, and the rest of the library takes series, and the
signals of a batch, in one pass.
-/

namespace Waveform

variable {α β : Type}

/-- A way to cut lists into consecutive pieces. -/
structure Cut (α : Type) where
  pieces : List α → List (List α)
  flatten_pieces (xs : List α) : (pieces xs).flatten = xs

namespace Cut

def halves : Cut α where
  pieces xs := [xs.take (xs.length / 2), xs.drop (xs.length / 2)]
  flatten_pieces xs := by simp

/-- Maps each piece and puts the values back in order. -/
def collect (cut : Cut α) (f : α → β) (xs : List α) : List β :=
  ((cut.pieces xs).map (·.map f)).flatten

theorem collect_eq_map (cut : Cut α) (f : α → β) (xs : List α) : cut.collect f xs = xs.map f := by
  rw [collect, ← List.map_flatten, cut.flatten_pieces]

end Cut

/-- Maps a list in one pass or in pieces, whichever the options choose for its length. -/
def Options.spread (options : Options) (cut : Cut α) (f : α → β) (xs : List α) : List β :=
  if options.shouldParallelize xs.length then cut.collect f xs else xs.map f

theorem Options.spread_eq_map (options : Options) (cut : Cut α) (f : α → β) (xs : List α) :
    options.spread cut f xs = xs.map f := by
  rw [spread, cut.collect_eq_map, ite_self]

namespace Formula.Program

def evaluateSeries (program : Program) (ts : List Float) (options : Options) (cut : Cut Float) :
    List Float :=
  options.spread cut program.evaluate ts

theorem evaluateSeries_eq (program : Program) (ts : List Float) (options : Options)
    (cut : Cut Float) : program.evaluateSeries ts options cut = program.evaluateAll ts :=
  options.spread_eq_map cut program.evaluate ts

end Formula.Program

end Waveform
