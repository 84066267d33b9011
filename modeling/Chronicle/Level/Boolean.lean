import Chronicle.Formula
import Chronicle.Level

/-!
# The Boolean level

Two levers and two guarded doors.  Lab B opens with the second lever, Lab C with either.  The
second lever stands in Lab D; the booth in the first room goes between the past and the present.
-/

namespace Chronicle.Level

def booleanDefinitions : List Definition :=
  [.mutable "lever1" true true,
    .mutable "lever2" false true,
    .derived "labBOpen" [.label "lever2"] (Formula.value "lever2").rule,
    .derived "labCOpen" [.label "lever1", .label "lever2"]
      (Formula.any [.value "lever1", .value "lever2"]).rule]

/-- The order in which the variables are declared. -/
def booleanNames : List String := ["lever1", "lever2", "labCOpen", "labBOpen"]

def boolean : Except Error (Catalogue × Level) := do
  let c ← Catalogue.empty.defineAll (booleanDefinitions.map fun d => ⟨d.name, d, []⟩)
  let graph ← Graph.build (← c.resolveAll (booleanNames.map .label)) []
  let lever1 ← graph.get "lever1"
  let lever2 ← graph.get "lever2"
  let doorB ← graph.get "labBOpen"
  let doorC ← graph.get "labCOpen"
  let booth ← Booth.ofTimes [-1, 0]
  let rooms : List Room :=
    [⟨"Start", true, false, [.booth booth], []⟩,
      ⟨"Lab A", false, false, [.toggle lever1], []⟩,
      ⟨"Lab B", false, true, [], []⟩,
      ⟨"Lab C", false, false, [], []⟩,
      ⟨"Lab D", false, false, [.toggle lever2], []⟩]
  let level : Level := ⟨World.start graph .standard none, rooms, []⟩
  let level := level.connect 0 1 .north none
  let level := level.connect 1 2 .east (some doorB.symbol)
  let level := level.connect 1 3 .west (some doorC.symbol)
  return (c, level.connect 1 4 .north none)

end Chronicle.Level
