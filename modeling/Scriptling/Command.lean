/-
  Scriptling.Command — the command line.

  The command takes one argument, the file with the program, and runs it. What the program
  prints and then its value go to the standard output, a failure to the standard error.
-/

import Scriptling.Session

namespace Scriptling.Command

inductive Request where
  | run (path : String)
  | version
  | help
  | unclear (problem : String)
  deriving DecidableEq, Repr

structure Report where
  stdout : String := ""
  stderr : String := ""
  status : UInt32 := 0
  deriving DecidableEq, Repr, Inhabited

def versionLine : String := "toys 0.1.0\n"

def usage : String := "Usage: toys <FILE>\n"

def request (path : Option String) : Request :=
  match path with
  | some path => .run path
  | none => .unclear "the following required arguments were not provided: <FILE>"

def takeFile (path : Option String) (argument : String) : Except Request String :=
  match path with
  | none => .ok argument
  | some _ => .error (.unclear ("unexpected argument '" ++ argument ++ "' found"))

def readFiles (path : Option String) : List String → Request
  | [] => request path
  | argument :: rest =>
    match takeFile path argument with
    | .ok path => readFiles (some path) rest
    | .error unclear => unclear

/-- What an option asks for, if the argument is one. A single dash is not. -/
def option? (argument : String) : Option Request :=
  match argument.toList with
  | '-' :: '-' :: name =>
    if name = "version".toList then some .version
    else if name = "help".toList then some .help
    else some (.unclear ("unexpected argument '" ++ argument ++ "' found"))
  | '-' :: letter :: _ =>
    if letter = 'V' then some .version
    else if letter = 'h' then some .help
    else some (.unclear ("unexpected argument '" ++ argument ++ "' found"))
  | _ => none

/-- Reads the arguments in order. The first option or fault decides. -/
def readArguments (path : Option String) : List String → Request
  | [] => request path
  | "--" :: rest => readFiles path rest
  | argument :: rest =>
    match option? argument with
    | some decided => decided
    | none =>
      match takeFile path argument with
      | .ok path => readArguments (some path) rest
      | .error unclear => unclear

def ofArguments (arguments : List String) : Request := readArguments none arguments

def unreadable (path : String) : Report where
  stderr := "Failed to read the input file '" ++ path ++ "'. Perhaps this file does not exist?\n"
  status := 1

def runReport (source : String) : Report :=
  match runSource ampleFuel source .unlimited with
  | some (.ok value, session) => { stdout := session.printed ++ value.render ++ "\n" }
  | some (.error failure, session) =>
    { stdout := session.printed, stderr := failure.message ++ "\n", status := 1 }
  | none => { stderr := "The program did not come to an end.\n", status := 1 }

def fileReport (path : String) (content : Option ByteArray) : Report :=
  match content.bind String.fromUTF8? with
  | some source => runReport source
  | none => unreadable path

def Request.report (file? : String → Option ByteArray) : Request → Report
  | .run path => fileReport path (file? path)
  | .version => { stdout := versionLine }
  | .help => { stdout := usage }
  | .unclear problem => { stderr := "error: " ++ problem ++ "\n\n" ++ usage, status := 2 }

end Scriptling.Command
