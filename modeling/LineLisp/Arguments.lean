import LineLisp.Repl

/-!
# Arguments

The arguments are read from left to right. Flags may be joined after one dash, options and the one
positional argument may come in any order, and after `--` every argument is positional. Help and
version act as soon as they are met, as does the first argument that is wrong; only what an option
requires is looked at when all arguments have been read.

## Main definitions

- `Argument.ofString`: the form of an argument.
- `Options.scan`: what the arguments set.
- `Invocation.ofArguments`: what the program is asked to do.
-/

namespace LineLisp

inductive Argument where
  /-- Two dashes alone. -/
  | separator
  /-- Two dashes and a name, with the text after an equals sign. -/
  | long (name : String) (value : Option String)
  /-- One dash and the letters after it. -/
  | short (letters : List Char)
  | plain (text : String)
deriving DecidableEq

namespace Argument

/-- The value that stands after the name of an option, if an equals sign divides them. -/
def valueOf : List Char → Option String
  | [] => none
  | _ :: value => some (String.ofList value)

def ofString (text : String) : Argument :=
  match text.toList with
  | ['-', '-'] => .separator
  | '-' :: '-' :: cs =>
    .long (String.ofList (cs.takeWhile (· ≠ '='))) (valueOf (cs.dropWhile (· ≠ '=')))
  | '-' :: c :: cs => .short (c :: cs)
  | _ => .plain text

end Argument

inductive UsageError where
  | unknown (argument : String)
  | repeated (argument : String)
  | valueMissing (option : String)
  | valueUnwanted (option : String)
  /-- The option needs another argument that is not there. -/
  | requires (option argument : String)
deriving DecidableEq

def UsageError.message : UsageError → String
  | .unknown argument => "unexpected argument '" ++ argument ++ "'"
  | .repeated argument => "'" ++ argument ++ "' was given twice"
  | .valueMissing option => "'" ++ option ++ "' needs a value"
  | .valueUnwanted option => "'" ++ option ++ "' takes no value"
  | .requires option argument => "'" ++ option ++ "' needs '" ++ argument ++ "'"

/-- What ends the reading of the arguments at once. -/
inductive Stop where
  | help
  | version
  | usage (e : UsageError)
deriving DecidableEq

inductive Flag where
  | file
  | quiet
  | help
  | version
deriving DecidableEq

namespace Flag

def all : List Flag := [.file, .quiet, .help, .version]

def name : Flag → String
  | .file => "file"
  | .quiet => "quiet"
  | .help => "help"
  | .version => "version"

def letter : Flag → Char
  | .file => 'f'
  | .quiet => 'q'
  | .help => 'h'
  | .version => 'V'

def ofName? (name : String) : Option Flag := all.find? fun flag => flag.name = name

def ofLetter? (letter : Char) : Option Flag := all.find? fun flag => flag.letter = letter

end Flag

structure Options where
  file : Bool := false
  quiet : Bool := false
  prompt : Option String := none
  contents : Option String := none
deriving DecidableEq

namespace Options

def setFlag (opts : Options) : Flag → Except Stop Options
  | .help => .error .help
  | .version => .error .version
  | .file =>
    if opts.file then .error (.usage (.repeated "--file")) else .ok { opts with file := true }
  | .quiet =>
    if opts.quiet then .error (.usage (.repeated "--quiet")) else .ok { opts with quiet := true }

def setPrompt (opts : Options) (text : String) : Except Stop Options :=
  if opts.prompt.isSome then .error (.usage (.repeated "--prompt"))
  else .ok { opts with prompt := some text }

def setContents (opts : Options) (text : String) : Except Stop Options :=
  if opts.contents.isSome then .error (.usage (.unknown text))
  else .ok { opts with contents := some text }

/-- Sets the flag of a letter. -/
def setLetter (opts : Options) (letter : Char) : Except Stop Options :=
  match Flag.ofLetter? letter with
  | some flag => opts.setFlag flag
  | none => .error (.usage (.unknown (String.ofList ['-', letter])))

/-- Sets what a long name stands for, other than an option that takes the next argument. -/
def setLong (opts : Options) (name : String) (value : Option String) : Except Stop Options :=
  match Flag.ofName? name, value with
  | some flag, none => opts.setFlag flag
  | some _, some _ => .error (.usage (.valueUnwanted ("--" ++ name)))
  | none, some text =>
    if name = "prompt" then opts.setPrompt text else .error (.usage (.unknown ("--" ++ name)))
  | none, none => .error (.usage (.unknown ("--" ++ name)))

/-- Reads the arguments on top of the options set before. -/
def scan (opts : Options) : List String → Except Stop Options
  | [] => .ok opts
  | arg :: args =>
    match Argument.ofString arg with
    | .separator => args.foldlM setContents opts
    | .plain text => do scan (← opts.setContents text) args
    | .short letters => do scan (← letters.foldlM setLetter opts) args
    | .long "prompt" none =>
      match args with
      | [] => .error (.usage (.valueMissing "--prompt"))
      | next :: args =>
        match Argument.ofString next with
        | .plain text => do scan (← opts.setPrompt text) args
        | _ => .error (.usage (.valueMissing "--prompt"))
    | .long name value => do scan (← opts.setLong name value) args

end Options

/-- What the program is asked to do. -/
inductive Invocation where
  | interact (prompt : String)
  | evaluate (source : String)
  | script (path : String) (quiet : Bool)
deriving DecidableEq

namespace Invocation

def ofOptions (opts : Options) : Except UsageError Invocation :=
  match opts.contents, opts.file, opts.quiet with
  | none, true, _ => .error (.requires "--file" "[CONTENTS]")
  | _, false, true => .error (.requires "--quiet" "--file")
  | none, false, false => .ok (.interact (opts.prompt.getD Repl.defaultPrompt))
  | some source, false, false => .ok (.evaluate source)
  | some path, true, quiet => .ok (.script path quiet)

def ofArguments (args : List String) : Except Stop Invocation :=
  match Options.scan {} args with
  | .error stop => .error stop
  | .ok opts => (ofOptions opts).mapError .usage

end Invocation

end LineLisp
