import Paydesk.Text.Number

/-!
Command lines: options with one or two dashes, values in order, and below them
the command lines of commands. What is given is checked as late as the next
option or value, so of two faults the later one may be told.
-/

namespace Paydesk.Service.CommandLine

open Text

inductive Fault
  | helpWanted
  | versionWanted
  | nothingGiven
  | missingCommand
  | unknownCommand
  | unknownArgument
  | emptyValue
  | invalidValue
  | repeated
  | unneededValue
  | missingArgument
deriving DecidableEq, Repr

/-- What an option does. -/
inductive Effect
  | takesValue (check : String → Option Fault)
  | isSwitch
  | showsHelp
  | showsVersion

structure Flag where
  name : String
  letter : Option Char
  effect : Effect

/-- A value that belongs to no option. -/
structure Place where
  name : String
  check : String → Option Fault

/-- The command line of a program or of a command. -/
structure Grammar where
  flags : List Flag
  places : List Place
  commands : List String

/-- The values given so far. The last option or place may still be open. -/
structure Reading where
  values : List (String × String)
  pending : Option (String × (String → Option Fault) × Option String)

namespace Reading

def empty : Reading := ⟨[], none⟩

def get? (r : Reading) (name : String) : Option String := r.values.lookup name

/-- Takes a value over. -/
def put (r : Reading) (name : String) (check : String → Option Fault) (value : String) :
    Except Fault Reading :=
  if (r.get? name).isSome then .error .repeated
  else
    match check value with
    | some fault => .error fault
    | none => .ok { r with values := r.values ++ [(name, value)] }

/-- Takes over what is still open. -/
def settle (r : Reading) : Except Fault Reading :=
  match r.pending with
  | none => .ok r
  | some (_, _, none) => .error .emptyValue
  | some (name, check, some value) => { r with pending := none }.put name check value

def openFor (r : Reading) (name : String) (check : String → Option Fault)
    (value : Option String) : Except Fault Reading := do
  return { ← r.settle with pending := some (name, check, value) }

/-- Whether the next word is the value of an option. -/
def isWaiting (r : Reading) : Bool :=
  match r.pending with
  | some (_, _, none) => true
  | _ => false

def fill (r : Reading) (value : String) : Reading :=
  { r with pending := r.pending.map fun (name, check, _) => (name, check, some value) }

end Reading

/-- An option without a value. -/
def act (flag : Flag) (r : Reading) : Except Fault Reading := do
  let r ← r.settle
  match flag.effect with
  | .showsHelp => .error .helpWanted
  | .showsVersion => .error .versionWanted
  | .isSwitch | .takesValue _ => r.put flag.name (fun _ => none) ""

/-- Options by their letters, behind one dash. What follows the letter of an
option with a value is the value. -/
def letters (g : Grammar) : List Char → Reading → Except Fault Reading
  | [], r => .ok r
  | c :: cs, r => do
      match g.flags.find? (·.letter == some c) with
      | none => .error .unknownArgument
      | some flag =>
          match flag.effect with
          | .takesValue check =>
              match cs with
              | [] => r.openFor flag.name check none
              | '=' :: cs => (← r.settle).put flag.name check (String.ofList cs)
              | cs => (← r.settle).put flag.name check (String.ofList cs)
          | _ => letters g cs (← act flag r)

/-- An option by its name, behind two dashes, perhaps with a value behind an
equals sign. -/
def named (g : Grammar) (cs : List Char) (r : Reading) : Except Fault Reading := do
  let (name, rest) := cs.span (· != '=')
  match g.flags.find? (·.name == String.ofList name), rest with
  | none, _ => .error .unknownArgument
  | some flag, [] =>
      match flag.effect with
      | .takesValue check => r.openFor flag.name check none
      | _ => act flag r
  | some flag, _ :: value =>
      match flag.effect with
      | .takesValue check => (← r.settle).put flag.name check (String.ofList value)
      | _ => .error .unneededValue

/-- The fault of a word for which there is no place. -/
def strayFault (g : Grammar) (onlyPlaces : Bool) (word : String) : Fault :=
  if g.commands.isEmpty || (onlyPlaces && g.commands.contains word) then .unknownArgument
  else .unknownCommand

/-- The command that asks for help about commands. -/
def helpCommand : String := "help"

/-- Asking for help about a command works for those that there are. -/
def helpFault (g : Grammar) : List String → Fault
  | [] => .helpWanted
  | [command] => if g.commands.contains command then .helpWanted else .unknownCommand
  | _ => .unknownCommand

/-- Reads words up to a command, or to the end. After two dashes alone all words
are values. -/
def scan (g : Grammar) (onlyPlaces : Bool) (places : List Place) :
    List String → Reading → Except Fault (Reading × Option (String × List String))
  | [], r => .ok (r, none)
  | word :: words, r => do
      if !onlyPlaces && !r.isWaiting && g.commands.contains word then
        if word == helpCommand then .error (helpFault g words)
        else return (r, some (word, words))
      else
        match onlyPlaces, word.toList with
        | false, ['-', '-'] => scan g true places words r
        | false, '-' :: '-' :: cs => scan g false places words (← named g cs r)
        | false, '-' :: c :: cs => scan g false places words (← letters g (c :: cs) r)
        | _, _ =>
            if !onlyPlaces && r.isWaiting then scan g onlyPlaces places words (r.fill word)
            else
              match places with
              | [] => .error (strayFault g onlyPlaces word)
              | place :: places =>
                  scan g onlyPlaces places words (← r.openFor place.name place.check (some word))

/-- Reads the command line of a command, which has no commands of its own. -/
def readCommand (g : Grammar) (words : List String) : Except Fault Reading := do
  let (r, _) ← scan g false g.places words .empty
  let r ← r.settle
  if g.places.all fun place => (r.get? place.name).isSome then return r
  else .error .missingArgument

/-- Reads a command line that needs a command. -/
def read (g : Grammar) (commands : List (String × Grammar)) (words : List String) :
    Except Fault (Reading × String × Reading) := do
  let (r, command) ← scan g false g.places words .empty
  match command with
  | none =>
      let r ← r.settle
      .error (if r.values.isEmpty then .nothingGiven else .missingCommand)
  | some (name, words) =>
      let some grammar := commands.lookup name | .error .unknownCommand
      let inner ← readCommand grammar words
      return (← r.settle, name, inner)

end Paydesk.Service.CommandLine
