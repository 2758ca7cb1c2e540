/-
  File:      FormulaGraph/Command/Options.lean
  Subject:   The arguments of the command line.

  A command is a name with options around it. The options of all commands may also stand before the
  name, once more there. Values of options stand in the next argument or are attached; flags of
  one letter may be written together. Behind `--` every argument is taken as it is.

  * `Options` -- what was asked for;
  * `Request.ofArgs` -- reading the arguments: the first thing that is wrong, or that asks for the
    version or for help, decides.
-/
import FormulaGraph.Plan.Compile

namespace FormulaGraph.Command

/-! ## 1. What can be asked for -/

/-- What to build, and what to show of it. -/
structure BuildOptions where
  expression : String
  container : Option String
  name : String
  maxNodes : Nat
  /-- Show the build script and build nothing. -/
  script : Bool
  /-- Show the drawing of the compound. -/
  drawing : Bool
  /-- The file for an image of the drawing. -/
  image : Option String
  deriving DecidableEq, Repr

/-- How the compound is to be made inside a container. -/
def BuildOptions.compound (o : BuildOptions) (parent : String) : CompoundOptions :=
  ⟨o.name, parent, o.maxNodes⟩

inductive Action where
  | build (options : BuildOptions)
  | parse (expression : String)
  | operators
  deriving DecidableEq, Repr

structure Options where
  verbose : Bool
  quiet : Bool
  action : Action
  deriving DecidableEq, Repr

/-- Which log lines are wanted. -/
def Options.logFilter (o : Options) : String :=
  if o.verbose then "debug" else if o.quiet then "error" else "warn"

/-- What the arguments ask for. -/
inductive Request where
  | run (options : Options)
  | version
  | help
  /-- The arguments are refused. -/
  | refused
  deriving DecidableEq, Repr

/-! ## 2. Options by name -/

inductive Flag where
  | verbose
  | quiet
  | script
  | drawing
  | help
  | version
  deriving DecidableEq, Repr

inductive Setting where
  | container
  | name
  | maxNodes
  | image
  deriving DecidableEq, Repr

/-- An option without or with a value. -/
inductive Switch where
  | flag (f : Flag)
  | setting (s : Setting)
  deriving DecidableEq, Repr

/-- The names of an option: its letter, if it has one, and its word. -/
structure Spelling where
  letter : Option Char
  word : String
  switch : Switch

/-- The options that every command takes. -/
def everywhere : List Spelling :=
  [⟨some 'v', "verbose", .flag .verbose⟩, ⟨some 'q', "quiet", .flag .quiet⟩,
   ⟨some 'h', "help", .flag .help⟩]

/-- The options before the command's name. -/
def topLevel : List Spelling := everywhere ++ [⟨some 'V', "version", .flag .version⟩]

/-- The options of building. -/
def building : List Spelling :=
  everywhere ++
    [⟨some 'c', "container", .setting .container⟩, ⟨some 'n', "name", .setting .name⟩,
     ⟨none, "max-nodes", .setting .maxNodes⟩, ⟨some 's', "script", .flag .script⟩,
     ⟨some 'd', "dot", .flag .drawing⟩, ⟨some 'g', "graph", .setting .image⟩]

def switchOfLetter? (known : List Spelling) (c : Char) : Option Switch :=
  (known.find? (·.letter == some c)).map (·.switch)

def switchOfWord? (known : List Spelling) (word : List Char) : Option Switch :=
  (known.find? (·.word.toList == word)).map (·.switch)

/-! ## 3. Reading one level of arguments -/

/-- What has been read on one level. -/
structure Level where
  flags : List Flag := []
  settings : List (Setting × String) := []
  /-- The arguments that are no options. -/
  plain : List String := []

/-- Why reading stops early. -/
inductive Stop where
  | version
  | help
  | refused

/-- Notes a flag. A flag given twice is refused. -/
def Level.withFlag (l : Level) : Flag → Except Stop Level
  | .help => .error .help
  | .version => .error .version
  | f => if f ∈ l.flags then .error .refused else .ok { l with flags := f :: l.flags }

/-- A count of at most 64 bits; a plus sign may stand before it. -/
def count? (text : String) : Option Nat :=
  let digits := match text.toList with
    | '+' :: rest => rest
    | cs => cs
  let value := digits.foldl (fun n c => 10 * n + (c.toNat - '0'.toNat)) 0
  if !digits.isEmpty && digits.all Char.isDigit && value < Nat.pow 2 64 then some value else none

def Setting.admits : Setting → String → Bool
  | maxNodes, value => (count? value).isSome
  | _, _ => true

/-- Notes the value of a setting. A setting given twice is refused. -/
def Level.withSetting (l : Level) (s : Setting) (value : String) : Except Stop Level :=
  if (l.settings.lookup s).isSome || !s.admits value then .error .refused
  else .ok { l with settings := (s, value) :: l.settings }

/-- The outcome of one argument: all read, or a setting waits for its value. -/
abbrev Read := Except Stop (Level × Option Setting)

/-- Reads letters written together. Behind a setting's letter stands its value. -/
def readLetters (known : List Spelling) (l : Level) : List Char → Read
  | [] => .ok (l, none)
  | c :: rest =>
    match switchOfLetter? known c with
    | none => .error .refused
    | some (.flag f) =>
      match l.withFlag f with
      | .ok l => readLetters known l rest
      | .error stop => .error stop
    | some (.setting s) =>
      match rest with
      | [] => .ok (l, some s)
      | '=' :: value => (l.withSetting s (String.ofList value)).map (·, none)
      | value => (l.withSetting s (String.ofList value)).map (·, none)

/-- Reads an option's word with the value attached to it, if there is one. -/
def readWord (known : List Spelling) (l : Level) (text : List Char) : Read :=
  let word := text.takeWhile (· != '=')
  match switchOfWord? known word, text.drop word.length with
  | some (.flag f), [] => (l.withFlag f).map (·, none)
  | some (.setting s), [] => .ok (l, some s)
  | some (.setting s), _ :: value => (l.withSetting s (String.ofList value)).map (·, none)
  | _, _ => .error .refused

/-- The kinds of arguments by their first characters. -/
inductive ArgKind where
  /-- Two dashes: no options follow. -/
  | divider
  | word (text : List Char)
  | letters (text : List Char)
  | plain

def argKind (arg : String) : ArgKind :=
  match arg.toList with
  | ['-', '-'] => .divider
  | '-' :: '-' :: text => .word text
  | ['-'] => .plain
  | '-' :: text => .letters text
  | _ => .plain

/-- Reads the options before the first plain argument, which is the command's name. -/
def readTop (l : Level) : List String → Except Stop (Level × String × List String)
  | [] => .error .refused
  | arg :: rest =>
    let go : Read → Except Stop (Level × String × List String)
      | .ok (l, _) => readTop l rest
      | .error stop => .error stop
    match argKind arg with
    | .divider => .error .refused
    | .word text => go (readWord topLevel l text)
    | .letters text => go (readLetters topLevel l text)
    | .plain => .ok (l, arg, rest)

/-- Reads the arguments behind the command's name, at most `room` of them plain. A setting that
    waits needs a plain argument next. -/
def readArgs (known : List Spelling) (room : Nat) (l : Level) (waiting : Option Setting) :
    List String → Except Stop Level
  | [] => if waiting.isSome then .error .refused else .ok l
  | arg :: rest =>
    let go : Read → Except Stop Level
      | .ok (l, next) => readArgs known room l next rest
      | .error stop => .error stop
    match argKind arg, waiting with
    | .plain, some s => go ((l.withSetting s arg).map (·, none))
    | .plain, none =>
      if l.plain.length < room then go (.ok ({ l with plain := l.plain ++ [arg] }, none))
      else .error .refused
    | _, some _ => .error .refused
    | .word text, none => go (readWord known l text)
    | .letters text, none => go (readLetters known l text)
    | .divider, none =>
      if l.plain.length + rest.length ≤ room then .ok { l with plain := l.plain ++ rest }
      else .error .refused

/-! ## 4. Commands -/

/-- Being verbose and being quiet exclude each other on one level. -/
def Level.isConsistent (l : Level) : Bool :=
  !(l.flags.contains .verbose && l.flags.contains .quiet)

/-- The one expression of a command. -/
def Level.expression (l : Level) : Except Stop String :=
  match l.plain with
  | [expression] => .ok expression
  | _ => .error .refused

def Level.buildOptions (l : Level) : Except Stop BuildOptions := do
  let expression ← l.expression
  return {
    expression
    container := l.settings.lookup .container
    name := (l.settings.lookup .name).getD ({} : CompoundOptions).name
    maxNodes := ((l.settings.lookup .maxNodes).bind count?).getD ({} : CompoundOptions).maxNodes
    script := l.flags.contains .script
    drawing := l.flags.contains .drawing
    image := l.settings.lookup .image }

/-- Reads the arguments of a named command. -/
def readAction (name : String) (args : List String) : Except Stop (Level × Action) :=
  match name with
  | "cook" | "build" => do
    let l ← readArgs building 1 {} none args
    return (l, .build (← l.buildOptions))
  | "parse" => do
    let l ← readArgs everywhere 1 {} none args
    return (l, .parse (← l.expression))
  | "operators" => do
    let l ← readArgs everywhere 0 {} none args
    return (l, .operators)
  | "help" => .error .help
  | _ => .error .refused

def readOptions (args : List String) : Except Stop Options := do
  let (top, name, rest) ← readTop {} args
  let (level, action) ← readAction name rest
  if top.isConsistent && level.isConsistent then
    let flags := top.flags ++ level.flags
    return ⟨flags.contains .verbose, flags.contains .quiet, action⟩
  else .error .refused

/-- Reads the arguments behind the program's name. -/
def Request.ofArgs (args : List String) : Request :=
  match readOptions args with
  | .ok options => .run options
  | .error .version => .version
  | .error .help => .help
  | .error .refused => .refused

end FormulaGraph.Command
