import Dominance.Log
import Dominance.Text.Line
import Dominance.Text.Resemblance

/-!
# The command line

A command line names a task and gives it options.

Arguments are read from left to right.
An option that takes a value finds it in the same argument, behind its name or an equals sign, or in
the next argument, provided that this is not an option itself.
An argument that cannot be placed ends the reading at once, and so does a request for help.
Where a task is expected, a word that resembles the word for a task is taken for a slip.
What was read is then checked as a whole: options that exclude each other, options that are
required, and for each option its values and how often it was given.

## Termination

Reading is a recursion on the list of arguments.
-/

namespace Dominance.Command

/-! ## Vocabulary -/

/-- The tasks by name. -/
inductive Verb where
  | authors
  | chart
  | check
  | solvable
  | solve
deriving DecidableEq, Repr

/-- The options of tasks. -/
inductive Switch where
  | input
  | max
  | countOnly
  | noCompactify
  | loggingLevel
deriving DecidableEq, Repr

namespace Verb

/-- The word for a task. -/
def word : Verb → String
  | .authors => "authors"
  | .chart => "chart"
  | .check => "check"
  | .solvable => "solvable"
  | .solve => "solve"

/-- All tasks. -/
def all : List Verb := [.authors, .chart, .check, .solvable, .solve]

/-- The task with a given word. -/
def ofWord? (word : String) : Option Verb := all.find? (·.word = word)

/-- The word that asks for help in the place of a task. -/
def helpWord : String := "help"

/-- Whether a word resembles one that could stand in the place of a task. -/
def isNear (word : String) : Bool :=
  (helpWord :: all.map Verb.word).any fun known => Text.resembles word.toList known.toList

/-- What a task does. -/
def summary : Verb → String
  | .authors => "Displays app version and authors"
  | .chart => "Displays the chart of a graph"
  | .check => "Checks an input graph for errors and displays its properties"
  | .solvable => "Checks whether a graph has solved forms and counts them"
  | .solve => "Enumerates the solved forms of a graph"

/-- The options that a task understands. -/
def switches : Verb → List Switch
  | .authors => [.loggingLevel]
  | .check => [.input, .loggingLevel]
  | .chart => [.input, .noCompactify, .loggingLevel]
  | .solvable => [.input, .noCompactify, .loggingLevel]
  | .solve => [.input, .max, .countOnly, .noCompactify, .loggingLevel]

end Verb

namespace Switch

/-- How an option is shown in messages. -/
def usage : Switch → String
  | .input => "-f <INPUT>"
  | .max => "--max <MAX>"
  | .countOnly => "--count-only"
  | .noCompactify => "--no-compactify"
  | .loggingLevel => "--logging-level <LOGGING_LEVEL>"

/-- The long name of an option. -/
def longName? : Switch → Option String
  | .input => none
  | .max => some "max"
  | .countOnly => some "count-only"
  | .noCompactify => some "no-compactify"
  | .loggingLevel => some "logging-level"

/-- The letter of an option. -/
def letter? : Switch → Option Char
  | .input => some 'f'
  | _ => none

/-- Whether an option takes a value. -/
def takesValue : Switch → Bool
  | .input | .max | .loggingLevel => true
  | .countOnly | .noCompactify => false

/-- Whether an option has a value even if none is given. -/
def hasDefault (s : Switch) : Bool := s = .loggingLevel

/-- Whether a value of an option may be empty. -/
def allowsEmpty (s : Switch) : Bool := s = .loggingLevel

/-- Whether a value is one of those that an option accepts. -/
def accepts : Switch → String → Bool
  | .loggingLevel, value => (Threshold.ofName? value).isSome
  | _, _ => true

end Switch

/-! ## Errors -/

/-- Why a command line is refused. -/
inductive UsageError where
  /-- The argument has no place here. -/
  | unexpected (argument : String)
  /-- The option lacks its value. -/
  | missingValue (switch : Switch)
  /-- The value is none of those that the option accepts. -/
  | badValue (value : String) (switch : Switch)
  /-- The option was given again. -/
  | repeated (switch : Switch)
  /-- The first option excludes the second. -/
  | conflict (first second : Switch)
  /-- A required option is missing. -/
  | missingRequired
  /-- No task is named. -/
  | noVerb
  /-- The word is no task, though it resembles one or help was asked for it. -/
  | unknownVerb (word : String)
deriving DecidableEq, Repr

/-- The wording of an error. -/
def UsageError.wording : UsageError → String
  | .unexpected argument =>
    "error: Found argument '" ++ argument
      ++ "' which wasn't expected, or isn't valid in this context"
  | .missingValue switch =>
    "error: The argument '" ++ switch.usage ++ "' requires a value but none was supplied"
  | .badValue value switch =>
    "error: '" ++ value ++ "' isn't a valid value for '" ++ switch.usage ++ "'"
  | .repeated switch =>
    "error: The argument '" ++ switch.usage
      ++ "' was provided more than once, but cannot be used multiple times"
  | .conflict first second =>
    "error: The argument '" ++ first.usage ++ "' cannot be used with '" ++ second.usage ++ "'"
  | .missingRequired => "error: The following required arguments were not provided:"
  | .noVerb => "error: 'domchart' requires a subcommand, but one was not provided"
  | .unknownVerb word => "error: The subcommand '" ++ word ++ "' wasn't recognized"

/-- The message of an error is the first line of its wording, which quotes an argument and may
therefore have more lines. -/
def UsageError.message (e : UsageError) : String := Text.headline e.wording

/-- Why reading a command line ends early. -/
inductive Stop where
  | help
  | error (error : UsageError)
deriving DecidableEq, Repr

/-! ## Options as given -/

/-- An option as it was given, with its value if there was one. -/
structure Given where
  switch : Switch
  value : Option String := none
deriving DecidableEq, Repr

/-- The state of reading the options of a task. -/
structure Options where
  /-- The options given so far, the last one first. -/
  given : List Given := []
  /-- Whether the last option waits for its value. -/
  waiting : Bool := false
  /-- Whether the options were declared to be over. -/
  closed : Bool := false
deriving DecidableEq, Repr

namespace Options

/-- How often an option was given. -/
def occurrences (o : Options) (s : Switch) : Nat := (o.given.filter (·.switch = s)).length

/-- Whether an option was given. -/
def has (o : Options) (s : Switch) : Bool := 0 < o.occurrences s

/-- The values given for an option, in order. -/
def values (o : Options) (s : Switch) : List String :=
  (o.given.reverse.filter (·.switch = s)).filterMap (·.value)

/-- The first value given for an option. -/
def value? (o : Options) (s : Switch) : Option String := (o.values s).head?

/-- The option that waits for its value. -/
def waiting? (o : Options) : Option Switch :=
  if o.waiting then o.given.head?.map (·.switch) else none

/-- Adds an option with a value in the same argument or without one. -/
def add (o : Options) (s : Switch) (attached : Option String) : Except Stop Options :=
  if s.takesValue then
    match attached with
    | none => .ok { o with given := ⟨s, none⟩ :: o.given, waiting := true }
    | some text =>
      let value := String.ofList (text.toList.dropWhile (· = '='))
      if value.isEmpty && !s.allowsEmpty then .error (.error (.missingValue s))
      else .ok { o with given := ⟨s, some value⟩ :: o.given, waiting := false }
  else
    .ok { o with given := ⟨s, none⟩ :: o.given, waiting := false }

/-- Takes a word as the value of the option that waits for one. -/
def addWord (o : Options) (word : String) : Except Stop Options :=
  match o.waiting, o.given with
  | true, last :: rest =>
    .ok { o with given := { last with value := some word } :: rest, waiting := false }
  | _, _ => .error (.error (.unexpected word))

end Options

/-! ## Arguments -/

/-- The forms of an argument. -/
inductive Argument where
  /-- A long option, with what follows an equals sign. -/
  | long (name : String) (attached : Option String)
  /-- An option of one letter, with the rest of the argument. -/
  | short (letter : Char) (attached : Option String)
  /-- The end of the options. -/
  | close
  | word (text : String)
deriving DecidableEq, Repr

/-- A text that is there only if it is not empty. -/
def nonempty? (cs : List Char) : Option String := if cs.isEmpty then none else some (.ofList cs)

/-- Tells the forms of an argument apart. -/
def Argument.ofString (s : String) : Argument :=
  match s.toList with
  | ['-', '-'] => .close
  | '-' :: '-' :: rest =>
    let rest := rest.dropWhile (· = '-')
    let attached :=
      match rest.dropWhile (· ≠ '=') with
      | _ :: value => some (String.ofList value)
      | [] => none
    .long (.ofList (rest.takeWhile (· ≠ '='))) attached
  | '-' :: letter :: rest => .short letter (nonempty? rest)
  | _ => .word s

/-- The option that an argument names, if the task understands it. -/
def Verb.switchOf? (verb : Verb) : Argument → Option (Switch × Option String)
  | .long name attached =>
    (verb.switches.find? (·.longName? = some name)).map fun s => (s, attached)
  | .short letter attached =>
    (verb.switches.find? (·.letter? = some letter)).map fun s => (s, attached)
  | _ => none

/-- The end of reading at an argument that starts with a dash and is no option of the task. -/
def Argument.stop : Argument → Stop
  | .long name _ => if name = "help" then .help else .error (.unexpected ("--" ++ name))
  | .short letter _ =>
    if letter = 'h' then .help else .error (.unexpected ("-" ++ letter.toString))
  | .close => .error (.unexpected "--")
  | .word text => .error (.unexpected text)

/-- Reads the options of a task. -/
def readOptions (verb : Verb) (o : Options) : List String → Except Stop Options
  | [] => .ok o
  | argument :: rest =>
    if o.closed then .error (.error (.unexpected argument))
    else
      match Argument.ofString argument with
      | .close => readOptions verb { o with closed := true } rest
      | .word text =>
        match o.addWord text with
        | .error stop => .error stop
        | .ok o => readOptions verb o rest
      | option =>
        match verb.switchOf? option with
        | none => .error option.stop
        | some (s, attached) =>
          match o.add s attached with
          | .error stop => .error stop
          | .ok o => readOptions verb o rest

/-! ## Checks -/

/-- An error, if a condition holds. -/
def failIf (condition : Bool) (error : UsageError) : Except UsageError Unit :=
  if condition then .error error else .ok ()

/-- Whether an option has no value, neither a given one nor a default. -/
def Options.lacksValue (o : Options) (s : Switch) : Bool :=
  s.takesValue && !s.hasDefault && (o.values s).isEmpty

/-- Whether a required option of a task is missing. -/
def Options.lacksRequired (o : Options) (verb : Verb) : Bool :=
  verb.switches.contains .input && !o.has .input

/-- Checks the values of an option. -/
def checkValues (s : Switch) : List String → Except UsageError Unit
  | [] => .ok ()
  | value :: rest => do
    failIf (!s.accepts value) (.badValue value s)
    failIf (value.isEmpty && !s.allowsEmpty) (.missingValue s)
    checkValues s rest

/-- Checks one option that was given. -/
def Options.checkSwitch (o : Options) (s : Switch) : Except UsageError Unit := do
  failIf (o.lacksValue s) (.missingValue s)
  checkValues s (o.values s)
  failIf (1 < o.occurrences s) (.repeated s)

/-- Checks the options of a task as a whole. -/
def Options.check (o : Options) (verb : Verb) : Except UsageError Unit := do
  if let some s := o.waiting? then
    failIf (o.lacksRequired verb) .missingRequired
    failIf (o.lacksValue s) (.missingValue s)
  failIf (o.has .max && o.has .countOnly) (.conflict .max .countOnly)
  failIf (o.lacksRequired verb) .missingRequired
  (verb.switches.filter o.has).forM o.checkSwitch

/-! ## Requests -/

/-- A task with all that it needs. -/
inductive Task where
  | authors
  | chart (input : String) (compactify : Bool)
  | check (input : String)
  | solvable (input : String) (compactify : Bool)
  | solve (input : String) (compactify : Bool) (max : Option String) (countOnly : Bool)
deriving DecidableEq, Repr

/-- A task and the records to be shown. -/
structure Request where
  task : Task
  threshold : Threshold
deriving DecidableEq, Repr

/-- The request made by the options of a task. -/
def Options.request (o : Options) (verb : Verb) : Request where
  task :=
    let input := (o.value? .input).getD ""
    let compactify := !o.has .noCompactify
    match verb with
    | .authors => .authors
    | .chart => .chart input compactify
    | .check => .check input
    | .solvable => .solvable input compactify
    | .solve => .solve input compactify (o.value? .max) (o.has .countOnly)
  threshold := ((o.value? .loggingLevel).bind Threshold.ofName?).getD (.upTo .info)

/-- Reads what follows a request for help: at most the name of one task. -/
def readHelp : List String → Stop
  | [] => .help
  | [word] =>
    if word = Verb.helpWord || (Verb.ofWord? word).isSome then .help else .error (.unknownVerb word)
  | word :: next :: _ =>
    if word = Verb.helpWord || (Verb.ofWord? word).isSome then .error (.unknownVerb next)
    else .error (.unknownVerb word)

/-- The error of a word in the place of a task. -/
def strayWord (word : String) : UsageError :=
  if Verb.isNear word then .unknownVerb word else .unexpected word

/-- Reads a command line without the name of the program. -/
def readRequest : List String → Except Stop Request
  | [] => .error (.error .noVerb)
  | argument :: rest =>
    match Argument.ofString argument with
    | .close =>
      match rest with
      | [] => .error (.error .noVerb)
      | next :: _ => .error (.error (strayWord next))
    | .word "help" => .error (readHelp rest)
    | .word text =>
      match Verb.ofWord? text with
      | none => .error (.error (strayWord text))
      | some verb =>
        match readOptions verb {} rest with
        | .error stop => .error stop
        | .ok options =>
          match options.check verb with
          | .error error => .error (.error error)
          | .ok () => .ok (options.request verb)
    | option => .error option.stop

end Dominance.Command
