import LightTree.Catalog.JsonForm
import LightTree.Catalog.Listing
import LightTree.Demo

/-!
# The command line

There are two commands: `catalog` lists the standard catalog, as JSON with `--json`, and `demo`
prints the line of the reference system. Either takes a settings file with `-c` or `--config`, before
the command or after it; the one after it counts. A file that cannot be used ends with code 1, a
misused command line with code 2.
-/

namespace LightTree

namespace CommandLine

/-- An argument by its form. The path of `-c` and `--config` is `none` when it is the argument that
follows. -/
inductive Form
  | separator
  | config (path : Option String)
  | version
  | json
  | word (text : String)
  | unknown
deriving DecidableEq, Repr

/-- A long option by its name and the value joined to it, if any. -/
def longForm (name : List Char) (value : Option String) : Form :=
  match String.ofList name, value with
  | "config", path => .config path
  | "version", none => .version
  | "json", none => .json
  | _, _ => .unknown

def formOfLong (chars : List Char) : Form :=
  match chars.dropWhile (· ≠ '=') with
  | _ :: value => longForm (chars.takeWhile (· ≠ '=')) (some (String.ofList value))
  | [] => longForm chars none

def formOfShort : List Char → Form
  | ['c'] => .config none
  | 'c' :: '=' :: path => .config (some (String.ofList path))
  | 'c' :: path => .config (some (String.ofList path))
  | 'V' :: _ => .version
  | _ => .unknown

def form (argument : String) : Form :=
  match argument.toList with
  | ['-'] => .word argument
  | ['-', '-'] => .separator
  | '-' :: '-' :: chars => formOfLong chars
  | '-' :: chars => formOfShort chars
  | _ => .word argument

def path? (argument : String) : Option String :=
  match form argument with
  | .word text => if text = "" then none else some text
  | _ => none

inductive Command
  | catalog
  | demo
deriving DecidableEq, Repr

def Command.ofWord? (word : String) : Option Command :=
  match word with
  | "catalog" => some .catalog
  | "demo" => some .demo
  | _ => none

structure Invocation where
  command : Command
  json : Bool := false
  config : Option String := none
deriving DecidableEq, Repr

/-- Sets the settings file of a level, where none has been set and the path is not empty. -/
def setConfig (config : Option String) (path : String) : Option (Option String) :=
  if config.isSome || path = "" then none else some (some path)

def readOptions (invocation : Invocation) : List String → Option Invocation
  | [] => some invocation
  | argument :: rest =>
    match form argument with
    | .separator => if rest.isEmpty then some invocation else none
    | .config (some path) =>
      match setConfig invocation.config path with
      | some config => readOptions { invocation with config } rest
      | none => none
    | .config none =>
      match rest with
      | path :: rest =>
        match (path? path).bind (setConfig invocation.config) with
        | some config => readOptions { invocation with config } rest
        | none => none
      | [] => none
    | .json =>
      if invocation.command = .catalog ∧ invocation.json = false then
        readOptions { invocation with json := true } rest
      else none
    | _ => none

inductive Request
  | version
  | invoke (invocation : Invocation)
deriving DecidableEq, Repr

/-- Reads the arguments up to a command, after `config` has been set, and then its options. -/
def readCommand (config : Option String) : List String → Option Request
  | [] => none
  | argument :: rest =>
    match form argument with
    | .version => some .version
    | .config (some path) =>
      match setConfig config path with
      | some config => readCommand config rest
      | none => none
    | .config none =>
      match rest with
      | path :: rest =>
        match (path? path).bind (setConfig config) with
        | some config => readCommand config rest
        | none => none
      | [] => none
    | .word word => do
      let invocation ← readOptions { command := ← Command.ofWord? word } rest
      return .invoke { invocation with config := invocation.config <|> config }
    | _ => none

/-- What a command line asks for; `none` for a misused one. -/
def read? (arguments : List String) : Option Request :=
  readCommand none arguments

/-! ## Answers -/

/-- The exit code, what is printed, and what is said about a failure. -/
structure Reply where
  code : Nat
  output : String := ""
  complaint : String := ""
deriving DecidableEq, Repr

def misuse : Reply :=
  { code := 2, complaint := "usage: [--config FILE] catalog [--json] | demo\n" }

def versionText : String := "lightweave-app 0.1.0\n"

def Invocation.output (invocation : Invocation) (settings : Settings) : Except Fault String :=
  match invocation.command with
  | .catalog =>
    if invocation.json then return Catalog.standard.toJson.pretty ++ "\n"
    else return Catalog.standard.listing
  | .demo => return (← Demo.line settings) ++ "\n"

/-- Answers an invocation; `file` holds the bytes of its settings file, if that can be read. -/
def Invocation.reply (invocation : Invocation) (file : Option ByteArray) : Reply :=
  let output : Except Fault String := do
    let settings ← if invocation.config.isSome then Settings.ofBytes file else pure {}
    invocation.output settings
  match output with
  | .ok text => { code := 0, output := text }
  | .error fault => { code := 1, complaint := fault.message ++ "\n" }

/-- Answers a command line; `read` gives the bytes of a file. -/
def reply (arguments : List String) (read : String → Option ByteArray) : Reply :=
  match read? arguments with
  | some .version => { code := 0, output := versionText }
  | some (.invoke invocation) => invocation.reply (invocation.config.bind read)
  | none => misuse

end CommandLine

end LightTree
