import Waveform.Catalog.Basic

/-!
# The standard catalog

Twelve signals for teaching, most of them with the steps by which they are built from elementary
signals.
-/

namespace Waveform.Catalog

open Waveform.Energy

/-- Name, formula and duration of the standard signals, in the order of presentation. -/
def standardSignals : List (String × String × Duration) :=
  [("x1(t)", "2*rect(2*t-1)", .finite),
    ("x2(t)", "sin(pi*t)*rect(t/2)", .finite),
    ("x3(t)", "tri(2*t)", .finite),
    ("x4(t)", "u(t-2)", .infinite),
    ("x5(t)", "u(3-t)", .infinite),
    ("x6(t)", "2*delta(t+1)-delta(t-2)+delta(t)-2*delta(t-1)", .finite),
    ("x7(t)", "rect((t-1)/2)-rect((t+1)/2)", .finite),
    ("x8(t)", "tri(t-1)-tri(t+1)", .finite),
    ("x9(t)", "rect(t/2)-tri(t)", .finite),
    -- Not bounded, but negligible outside any window of observation.
    ("x10(t)", "exp(-t)*u(t-2)", .finite),
    ("x11(t)", "sin(4*pi)", .infinite),
    ("x12(t)", "ramp(t+1)-2*ramp(t)+ramp(t-1)", .finite)]

/-- The steps of the standard signals that have some: description and formula. -/
def standardDecompositions : List (String × Combination × List (String × String)) :=
  [("x1(t)", .sequence,
      [("rect(t): centred on 0, width 1", "rect(t)"),
        ("Time compression: rect(2t) has width 1/2", "rect(2t)"),
        ("Shift: rect(2t-1) = rect(2(t-0.5)) is centred on t = 0.5", "rect(2t-1)"),
        ("Amplification: 2 rect(2t-1)", "2rect(2t-1)")]),
    ("x2(t)", .sequence,
      [("rect(t/2): window of width 2 centred on 0", "rect(t/2)"),
        ("sin(πt): sinusoid of frequency 1/2", "sin(pi*t)"),
        ("Product: windowed sinusoid", "sin(pi*t)*rect(t/2)")]),
    ("x3(t)", .sequence,
      [("tri(t): triangle of width 2 centred on 0", "tri(t)"),
        ("Compression: tri(2t) has width 1", "tri(2t)")]),
    ("x4(t)", .sequence,
      [("u(t): unit step at t = 0", "u(t)"),
        ("Shift: u(t-2) starts at t = 2", "u(t-2)")]),
    ("x5(t)", .sequence,
      [("u(t): unit step", "u(t)"),
        ("Reversal: u(-t)", "u(-t)"),
        ("Shift: u(3-t) = u(-(t-3)) is active for t <= 3", "u(3-t)")]),
    ("x6(t)", .sum,
      [("2δ(t+1): impulse of weight 2 at t = -1", "2delta(t+1)"),
        ("-δ(t-2): negative impulse at t = 2", "-delta(t-2)"),
        ("δ(t): impulse at t = 0", "delta(t)"),
        ("-2δ(t-1): impulse of weight -2 at t = 1", "-2delta(t-1)")]),
    ("x7(t)", .sequence,
      [("rect((t-1)/2): rectangle of width 2 centred on t = 1", "rect((t-1)/2)"),
        ("rect((t+1)/2): rectangle of width 2 centred on t = -1", "rect((t+1)/2)"),
        ("Difference of the two rectangles", "rect((t-1)/2) - rect((t+1)/2)")]),
    ("x8(t)", .sequence,
      [("tri(t-1): triangle centred on t = 1", "tri(t-1)"),
        ("tri(t+1): triangle centred on t = -1", "tri(t+1)"),
        ("Difference: tri(t-1) - tri(t+1)", "tri(t-1) - tri(t+1)")]),
    ("x9(t)", .sequence,
      [("rect(t/2): rectangle of width 2", "rect(t/2)"),
        ("tri(t): triangle of width 2", "tri(t)"),
        ("Difference: rect(t/2) - tri(t)", "rect(t/2) - tri(t)")]),
    ("x10(t)", .sequence,
      [("u(t-2): step starting at t = 2", "u(t-2)"),
        ("exp(-t): decaying exponential", "exp(-t)"),
        ("Product: exp(-t) u(t-2)", "exp(-t)*u(t-2)")]),
    ("x12(t)", .sequence,
      [("ramp(t+1): ramp starting at t = -1", "ramp(t+1)"),
        ("-2 ramp(t): inverted ramp of slope 2 at t = 0", "-2ramp(t)"),
        ("ramp(t-1): ramp starting at t = 1", "ramp(t-1)"),
        ("Sum: ramp(t+1) - 2 ramp(t) + ramp(t-1) = tri(t)",
          "ramp(t+1) - 2ramp(t) + ramp(t-1)")])]

def decompose (catalog : Catalog) (name : String) (combination : Combination)
    (parts : List (String × String)) : Catalog :=
  match Decomposition.compile combination parts with
  | .ok decomposition => (catalog.setDecomposition name decomposition).2
  | .error _ => catalog

/-- The standard signals with their decompositions. -/
def standard : Catalog :=
  let signals := standardSignals.foldl
    (fun catalog (name, formula, duration) => register catalog name formula duration) empty
  standardDecompositions.foldl
    (fun catalog (name, combination, parts) => decompose catalog name combination parts) signals

end Waveform.Catalog
