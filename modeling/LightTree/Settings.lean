import LightTree.Fault
import LightTree.Json.Decode
import LightTree.Json.Read

/-!
# Settings

The settings of a tree stand under the key `tree` of a settings file. All keys may be missing.
-/

namespace LightTree

/-- `maxDepth` bounds the chain of dependents that a change may run through. While `coalesce` is
set, the view is refreshed once a change, otherwise once more for each dependent. -/
structure Settings where
  maxDepth : Nat := 64
  coalesce : Bool := true
deriving DecidableEq, Repr

namespace Settings

def keys : List String := ["max_cascade_depth", "coalesce_notifications"]

def toJson (settings : Settings) : Json :=
  .record (keys.zip [.ofNat settings.maxDepth, .boolean settings.coalesce])

def part {α : Type} (decode : Json → Option α) (default : α) : Option Json → Option α
  | none => some default
  | some value => decode value

def ofJson? (json : Json) : Option Settings :=
  match json.toRecord? keys 0 with
  | some [maxDepth, coalesce] =>
    let defaults : Settings := {}
    return { maxDepth := ← part Json.toWord? defaults.maxDepth maxDepth
             coalesce := ← part Json.toBoolean? defaults.coalesce coalesce }
  | _ => none

def ofJson (json : Json) : Except Fault Settings :=
  Fault.orMalformed (ofJson? json)

def ofFileJson? (json : Json) : Option Settings :=
  match json.toRecord? ["tree"] 0 with
  | some [tree] => part ofJson? {} tree
  | _ => none

def toFileJson (settings : Settings) : Json :=
  .record [("tree", settings.toJson)]

def ofText (text : String) : Except Fault Settings :=
  Fault.orMalformed ((Json.parse? text).bind ofFileJson?)

/-- Reads a settings file from its bytes; `none` for a file that is not there. -/
def ofBytes (bytes : Option ByteArray) : Except Fault Settings :=
  match bytes.bind String.fromUTF8? with
  | some text => ofText text
  | none => .error .unreadableFile

end Settings

end LightTree
