import Apportion.Settings.Load

/-!
The arguments of the program. Options stand anywhere among them and are read from left to right: the
first one that asks for help, asks for the version or is wrong ends the reading. An option may be
given once before the command and, if the command knows it, once after it; only `-v` counts.
-/
namespace Apportion.CommandLine

inductive Flag
  | json
  | verbose
  | help
  | version
  | directory
  | config
  | report
  | outDir
  | jobs
  | dryRun
  | noIgnoreList
  deriving DecidableEq, Repr

namespace Flag

/-- The name after two dashes. -/
def long : Flag → String
  | json => "json"
  | verbose => "verbose"
  | help => "help"
  | version => "version"
  | directory => "directory"
  | config => "config"
  | report => "report"
  | outDir => "out-dir"
  | jobs => "jobs"
  | dryRun => "dry-run"
  | noIgnoreList => "no-ignore-list"

/-- The letter after one dash. -/
def letter? : Flag → Option Char
  | verbose => some 'v'
  | help => some 'h'
  | version => some 'V'
  | directory => some 'd'
  | config => some 'c'
  | jobs => some 'j'
  | _ => none

def takesValue : Flag → Bool
  | directory | config | report | outDir | jobs => true
  | _ => false

/-- Whether a value can stand after the option: a number of jobs, or a path that is not empty. -/
def accepts : Flag → String → Bool
  | jobs, value => (Settings.countOf value.toList).isSome
  | _, value => value != ""

end Flag

/-! ## Commands -/

structure ProjectArguments where
  directory : Path
  config : Option Path
  report : Option Path
  outDir : Option Path
  jobs : Option Nat
  deriving Repr

inductive Command
  | build (project : ProjectArguments) (dryRun ignoreList json : Bool)
  | plan (project : ProjectArguments)
  deriving Repr

inductive UsageError
  | missingCommand
  | unexpected (argument : String)
  | missingValue (flag : Flag)
  | unneededValue (flag : Flag)
  | invalidValue (flag : Flag) (value : String)
  | repeated (flag : Flag)
  deriving DecidableEq, Repr

def UsageError.message : UsageError → String
  | missingCommand => "a command is missing"
  | unexpected argument => s!"unexpected argument '{argument}'"
  | missingValue flag => s!"a value is missing for '--{flag.long}'"
  | unneededValue flag => s!"'--{flag.long}' takes no value"
  | invalidValue flag value => s!"invalid value '{value}' for '--{flag.long}'"
  | repeated flag => s!"'--{flag.long}' is given more than once"

inductive Stop
  | help
  | version
  | usage (cause : UsageError)
  deriving DecidableEq, Repr

/-! ## Options that are given -/

/-- The options given so far with their values; the value of an option that takes none is empty. -/
abbrev Given := List (Flag × String)

namespace Given

def has (g : Given) (f : Flag) : Bool := (g.lookup f).isSome

def path? (g : Given) (f : Flag) : Option Path := (g.lookup f).map (⟨·⟩)

def take (g : Given) (f : Flag) (value : String) : Except Stop Given :=
  match f with
  | .help => .error .help
  | .version => .error .version
  | .verbose => .ok ((f, value) :: g)
  | f =>
    if g.has f then .error (.usage (.repeated f))
    else if f.takesValue && !f.accepts value then .error (.usage (.invalidValue f value))
    else .ok ((f, value) :: g)

/-- The options with those of letters after one dash. An option that takes a value takes the letters
after its own, less an equals sign in front; if there are none, it is left for the next argument. -/
def takeLetters (flags : List Flag) (g : Given) : List Char → Except Stop (Given × Option Flag)
  | [] => .ok (g, none)
  | c :: rest =>
    match flags.find? fun f => f.letter? == some c with
    | none => .error (.usage (.unexpected (String.ofList ['-', c])))
    | some f =>
      if f.takesValue then
        match rest with
        | [] => .ok (g, some f)
        | '=' :: value => (g.take f (String.ofList value)).map fun g => (g, none)
        | value => (g.take f (String.ofList value)).map fun g => (g, none)
      else (g.take f "").bind fun g => takeLetters flags g rest

/-- The options with one that is written out, perhaps with its value. -/
def takeLong (flags : List Flag) (g : Given) (name : String) (value : Option String) :
    Except Stop (Given × Option Flag) :=
  match flags.find? fun f => f.long == name with
  | none => .error (.usage (.unexpected ("--" ++ name)))
  | some f =>
    match value, f.takesValue with
    | some v, true => (g.take f v).map fun g => (g, none)
    | some _, false => .error (.usage (.unneededValue f))
    | none, true => .ok (g, some f)
    | none, false => (g.take f "").map fun g => (g, none)

end Given

/-! ## Reading -/

/-- An argument by its shape. A dash alone is a plain argument. -/
inductive Argument
  | plain (text : String)
  /-- Two dashes alone, after which everything is plain. -/
  | terminator
  | long (name : String) (value : Option String)
  | letters (cluster : List Char)
  deriving DecidableEq, Repr

def Argument.ofString (s : String) : Argument :=
  match s.toList with
  | ['-', '-'] => terminator
  | '-' :: '-' :: rest =>
    let name := rest.takeWhile (· ≠ '=')
    let value := match rest.drop name.length with
      | _ :: value => some (String.ofList value)
      | [] => none
    long (String.ofList name) value
  | '-' :: c :: rest => letters (c :: rest)
  | _ => plain s

/-- Takes options in up to the first plain argument, which is left with all after it. The value of an
option `pending` comes first. Nothing may follow the terminator. -/
def scan (flags : List Flag) (pending : Option Flag) (g : Given) :
    List String → Except Stop (Given × List String)
  | [] =>
    match pending with
    | some f => .error (.usage (.missingValue f))
    | none => .ok (g, [])
  | argument :: rest =>
    match pending, Argument.ofString argument with
    | some f, .plain value => (g.take f value).bind fun g => scan flags none g rest
    | some f, _ => .error (.usage (.missingValue f))
    | none, .plain _ => .ok (g, argument :: rest)
    | none, .terminator =>
      match rest with
      | [] => .ok (g, [])
      | next :: _ => .error (.usage (.unexpected next))
    | none, .long name value =>
      (g.takeLong flags name value).bind fun (g, pending) => scan flags pending g rest
    | none, .letters cluster =>
      (g.takeLetters flags cluster).bind fun (g, pending) => scan flags pending g rest

def topFlags : List Flag := [.json, .verbose, .help, .version]

def projectFlags : List Flag :=
  [.directory, .config, .report, .outDir, .jobs, .json, .verbose, .help]

def buildFlags : List Flag := projectFlags ++ [.dryRun, .noIgnoreList]

/-- The options of a command, after which nothing may stand. -/
def scanAll (flags : List Flag) (arguments : List String) : Except Stop Given :=
  (scan flags none [] arguments).bind fun
    | (g, []) => .ok g
    | (_, extra :: _) => .error (.usage (.unexpected extra))

def Given.project (g : Given) : ProjectArguments where
  directory := (g.path? .directory).getD ⟨"."⟩
  config := g.path? .config
  report := g.path? .report
  outDir := g.path? .outDir
  jobs := (g.lookup .jobs).bind fun v => Settings.countOf v.toList

/-- The word after `help` names a command or nothing. -/
def helpOn : List String → Stop
  | [] | ["build"] | ["plan"] | ["help"] => .help
  | topic :: _ => .usage (.unexpected topic)

def Command.parse (arguments : List String) : Except Stop Command := do
  match ← scan topFlags none [] arguments with
  | (top, "build" :: rest) =>
    let g ← scanAll buildFlags rest
    return .build g.project (g.has .dryRun) (!g.has .noIgnoreList) (top.has .json || g.has .json)
  | (_, "plan" :: rest) => return .plan (← scanAll projectFlags rest).project
  | (_, "help" :: rest) => throw (helpOn rest)
  | (_, extra :: _) => throw (.usage (.unexpected extra))
  | (_, []) => throw (.usage .missingCommand)

end Apportion.CommandLine
