import WordAutomata.Command.Recognize

/-!
# Saving a named language

The command writes the automaton of a named language to a file, replacing what the file held.
-/
namespace WordAutomata.Command

/-- The settings of the command. -/
structure SaveSettings where
  name : Option (Setting String)
  output : Option (Setting Files.Path)
deriving DecidableEq

/-- The options of the command. -/
def SaveSettings.specs : List OptionSpec := [⟨"--name", true⟩, ⟨"--output", true⟩]

/-- The settings after a request. -/
def SaveSettings.set (s : SaveSettings) : Request → Option SaveSettings
  | .set "--name" name => some { s with name := some name }
  | .set "--output" path => some { s with output := some (path.map .ofText) }
  | _ => some s

/-- The name and the path that arguments give; both are required. -/
def saveTask (args : List String) : Except Exit (Setting String × Setting Files.Path) :=
  match readArguments SaveSettings.specs SaveSettings.set ⟨none, none⟩ args with
  | .error exit => .error exit
  | .ok ⟨some name, some path⟩ => .ok (name, path)
  | .ok _ => .error .misuse

/-- The named language. -/
def loadNamed (name : Setting String) : Except Failure (String × Dfa) := do
  let name ← name.require .name
  let M ← (Language.named name).mapError .language
  return (name, M)

/-- The world in which an automaton has been saved, with a note of where. -/
def saveAt (w : World) (path : Setting Files.Path) (M : Dfa) : Except Failure World := do
  let path ← path.require .directory
  let w ← w.writeFile path M.write
  return w.note ("wrote " ++ path.text)

/-- The command that saves a named language. -/
def save : Program := fun args w =>
  match saveTask args with
  | .error exit => .exited exit w
  | .ok (name, path) =>
    match loadNamed name with
    | .error failure => .failed failure w
    | .ok (name, M) =>
      let w := w.note (name ++ ": " ++ sizeText M)
      match saveAt w path M with
      | .error failure => .failed failure w
      | .ok w => .finished w

end WordAutomata.Command
