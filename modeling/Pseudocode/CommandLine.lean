import Pseudocode.Program

/-!
The command line: one path and a flag that asks for a listing after the run. The path
has to name a file with the extension `algo` in any case. What a path names is looked
up in a working folder, given here as the directories and files it holds.
-/

namespace Pseudocode

structure Invocation where
  path : Text
  listing : Bool
  deriving DecidableEq

structure Report where
  stdout : Bytes
  stderr : Bytes
  code : Nat
  deriving DecidableEq

namespace Invocation

def isListingFlag (argument : Text) : Bool :=
  argument = "-d".toList || argument = "--dump".toList

/-- One path, and the flag at most once, in any order. -/
def ofArguments? (arguments : List Text) : Option Invocation :=
  match arguments.partition isListingFlag with
  | ([], [path]) => some ⟨path, false⟩
  | ([_], [path]) => some ⟨path, true⟩
  | _ => none

/-- The last component of a path, not counting single dots and empty components. -/
def fileName? (path : Text) : Option Text :=
  ((Text.parts '/' path).filter fun part => !part.isEmpty && part ≠ ['.']).getLast?

/-- What follows the last point of a file name; a point that leads the name does not
count unless another one follows. -/
def extension? (name : Text) : Option Text :=
  if name = ['.', '.'] then none
  else match (Text.cut? '.' name.reverse) with
    | none => none
    | some (tail, front) => if front.isEmpty then none else some tail.reverse

def isProgramPath (path : Text) : Bool :=
  match (fileName? path).bind extension? with
  | none => false
  | some tail => Text.sameLetters tail "algo".toList

def notice (message : Text) : Text := "[INTERPRETER] ".toList ++ message ++ ['\n']

def usage : Text := "Usage: algo <file.algo>\n".toList

def failed (stderr : Text) : Report := ⟨[], Text.toUtf8 stderr, 1⟩

/-- The program to run, given the content of the file that the path names. -/
def prepare (invocation : Invocation) (content : Option Bytes) : Except Report Program :=
  let shown := ['\''] ++ invocation.path ++ ['\'']
  if !isProgramPath invocation.path then
    .error (failed (notice (shown ++ " is not an .algo file.".toList) ++ usage))
  else match content with
    | none => .error (failed (notice (shown ++ " does not exist.".toList) ++ usage))
    | some bytes =>
        match Text.ofUtf8? bytes with
        | none =>
            .error (failed (notice ("Failed to read ".toList ++ shown ++ ": ".toList ++
              Disruption.notUtf8.message.toList)))
        | some source =>
            match Program.load source with
            | .error rejection => .error (failed (notice rejection.message.toList))
            | .ok program => .ok program

/-- Runs the program; the listing comes before the error that stopped it. -/
def execute (invocation : Invocation) (program : Program) (input : Bytes) : Report :=
  let outcome := program.run input .unlimited
  let listed := if invocation.listing then outcome.program.listing else []
  match outcome.error with
  | none => ⟨outcome.output, Text.toUtf8 listed, 0⟩
  | some error => ⟨outcome.output, Text.toUtf8 (listed ++ notice error.message.toList), 1⟩

def report (invocation : Invocation) (content : Option Bytes) (input : Bytes) : Report :=
  match invocation.prepare content with
  | .error report => report
  | .ok program => invocation.execute program input

end Invocation

/-- A working folder. Directories and files are named by the components that lead to
them. -/
structure Folder where
  directories : List (List Text)
  files : List (List Text × Bytes)

namespace Folder

def isDirectory (folder : Folder) (place : List Text) : Bool :=
  place.isEmpty || folder.directories.contains place

def holds (folder : Folder) (place : List Text) : Bool :=
  folder.isDirectory place || (folder.files.lookup place).isSome

/-- Follows the components of a path. Only a directory has components below it, also
the empty one that a final slash leaves. -/
def walk (folder : Folder) (here : List Text) : List Text → Option (List Text)
  | [] => some here
  | part :: rest =>
      if !folder.isDirectory here then none
      else if part.isEmpty || part = ['.'] then folder.walk here rest
      else if part = ['.', '.'] then
        if here.isEmpty then none else folder.walk here.dropLast rest
      else if folder.holds (here ++ [part]) then folder.walk (here ++ [part]) rest
      else none

def fileAt (folder : Folder) (path : Text) : Option Bytes :=
  (folder.walk [] (Text.parts '/' path)).bind fun place => folder.files.lookup place

end Folder

def Invocation.reportIn (invocation : Invocation) (folder : Folder) (input : Bytes) : Report :=
  invocation.report (folder.fileAt invocation.path) input

end Pseudocode
