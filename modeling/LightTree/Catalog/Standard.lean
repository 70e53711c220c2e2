import LightTree.Catalog.Basic

/-!
# The standard catalog

The kinds that the lighting controller understands. A system holds objects, objects hold
animations, and a basic animation holds the functions that drive it.
-/

namespace LightTree

namespace Catalog

private def int (name : String) : FieldDecl := .scalar name (.integer 0)

private def position (name : String) : FieldDecl := .scalar name (.position 0)

private def boolean (name : String) : FieldDecl := .scalar name (.boolean false)

private def system : NodeKind :=
  { name := "System", symbol := "", category := .system
    childCategory := .object, minChildren := 0, maxChildren := none, fields := [] }

private def standardObject : NodeKind :=
  { name := "Standard Object", symbol := "l", category := .object
    childCategory := .animation, minChildren := 0, maxChildren := none
    fields := [
      position "position", boolean "persistent",
      .choice "defineBy" [⟨"Length", "l"⟩, ⟨"Colors", "c"⟩],
      .gated "length" "defineBy" (.equals "l") (int "length"),
      .gated "colors" "defineBy" (.equals "c")
        (.list "colors" .free [.scalar "color" (.color "000000")])] }

private def generator : NodeKind :=
  { name := "Generator", symbol := "g", category := .object
    childCategory := .object, minChildren := 1, maxChildren := some 1
    fields := [position "position", int "spacing"] }

private def basicAnimation : NodeKind :=
  { name := "Basic Animation", symbol := "b", category := .animation
    childCategory := .function, minChildren := 0, maxChildren := some 16
    fields := [
      int "duration", boolean "loop",
      .choice "bind" [⟨"Position", "p"⟩, ⟨"Relative Position", "r"⟩, ⟨"Colors", "c"⟩,
        ⟨"Opacity", "o"⟩, ⟨"Brightness", "b"⟩, ⟨"Length", "l"⟩],
      int "frameOffset", boolean "bindToLength", int "lightOffset",
      .list "absoluteStateTransitions" .free [int "state", int "frame"],
      .list "relativeStateTransitions" .free [int "state", int "frame"]] }

private def animationSequence : NodeKind :=
  { name := "Animation Sequence", symbol := "s", category := .animation
    childCategory := .animation, minChildren := 0, maxChildren := some 16
    fields := [
      int "loops", .list "nextTriggers" .free [int "state"],
      .list "prevTriggers" .free [int "state"], .list "resetTriggers" .free [int "state"]] }

private def stateMap : NodeKind :=
  { name := "State Map", symbol := "m", category := .animation
    childCategory := .animation, minChildren := 0, maxChildren := some 16
    fields := [.list "states" .children [int "state", int "animation"]] }

/-- A function has no children and integer parameters. -/
private def function (name symbol : String) (parameters : List String) : NodeKind :=
  { name, symbol, category := .function
    childCategory := .nothing, minChildren := 0, maxChildren := some 0
    fields := parameters.map int }

def standardKinds : List NodeKind :=
  [system, standardObject, generator, basicAnimation, animationSequence, stateMap,
    function "Ease" "e" ["start", "end"], function "Linear" "l" ["start", "end"],
    function "Perlin" "p" ["speed", "min", "max"], function "Random" "r" ["min", "max"],
    function "Static" "s" ["value"]]

theorem check_standardKinds : check standardKinds = .ok () := by
  decide +kernel

def standard : Catalog := ⟨standardKinds, check_standardKinds⟩

end Catalog

end LightTree
