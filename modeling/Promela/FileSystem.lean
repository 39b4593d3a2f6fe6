/-! Files and directories as a map from absolute paths, and the three operations that a tool needs:
reading a file, writing a file, and renaming one. -/
namespace Promela

abbrev Bytes := List UInt8

def Bytes.ofText (s : String) : Bytes := s.toUTF8.toList

/-- The text that the bytes encode, if they are UTF-8. -/
def Bytes.text? (b : Bytes) : Option String := String.fromUTF8? ⟨b.toArray⟩

/-- The number and the text by which the system reports a failed operation. -/
structure FileError where
  code : Nat
  text : String
deriving DecidableEq

namespace FileError

def notFound : FileError := ⟨2, "No such file or directory"⟩

def busy : FileError := ⟨16, "Device or resource busy"⟩

def notADirectory : FileError := ⟨20, "Not a directory"⟩

def isADirectory : FileError := ⟨21, "Is a directory"⟩

def nameTooLong : FileError := ⟨36, "File name too long"⟩

def message (e : FileError) : String := s!"{e.text} (os error {e.code})"

end FileError

/-- A path as it is given: the names between its slashes, where it starts, and how it ends. -/
structure Path where
  absolute : Bool
  names : List String
  endsInSlash : Bool
  size : Nat
deriving DecidableEq

namespace Path

def splitSlashes : List Char → List (List Char)
  | [] => [[]]
  | c :: cs =>
    if c = '/' then [] :: splitSlashes cs
    else
      match splitSlashes cs with
      | [] => [[c]]
      | w :: ws => (c :: w) :: ws

def ofString (s : String) : Path where
  absolute := s.toList.head? == some '/'
  names := ((splitSlashes s.toList).filter (· ≠ [])).map String.ofList
  endsInSlash := s.toList.getLast? == some '/'
  size := s.utf8ByteSize

/-- Drops, from a path read backwards, the slashes at its end and the names `.` between them. -/
def trimmed : List Char → List Char
  | '/' :: cs => trimmed cs
  | '.' :: '/' :: cs => trimmed ('/' :: cs)
  | cs => cs

/-- A name without its extension, read backwards. A dot in front starts no extension. -/
def stem (name : List Char) : List Char :=
  match name.dropWhile (· != '.') with
  | [] | ['.'] => name
  | _ :: rest => rest

/-- A path without the extension that it ends with, the dot left in place, read backwards. -/
def withoutExtension (cs : List Char) : List Char :=
  match (cs.takeWhile (· != '/')).dropWhile (· != '.') with
  | [] | ['.'] => cs
  | name => name ++ cs.dropWhile (· != '/')

/-- The path with another extension to its last name. The extension that it ends with is taken off
first, and a path that then stands for a directory by itself stays as it is: `..x` becomes `..`. -/
def withExtension (path extension : String) : String :=
  let bare := withoutExtension path.toList.reverse
  let cs := trimmed bare
  let name := cs.takeWhile (· != '/')
  if name ∈ [[], ['.'], ['.', '.']] then String.ofList bare.reverse
  else String.ofList (stem name ++ cs.dropWhile (· != '/')).reverse ++ "." ++ extension

end Path

/-- Absolute locations, as the names on the way from the root. -/
abbrev Location := List String

inductive Node
  | file (content : Bytes)
  | directory
deriving DecidableEq

structure FileSystem where
  nodes : List (Location × Node)
  /-- The working directory. -/
  here : Location
deriving DecidableEq

namespace FileSystem

/-- The root is always a directory. -/
def node? (fs : FileSystem) (l : Location) : Option Node :=
  if l = [] then some .directory else fs.nodes.lookup l

/-- Puts a node at a location, in place of what was there. -/
def put (fs : FileSystem) (l : Location) (n : Node) : FileSystem :=
  { fs with nodes := (l, n) :: fs.nodes.filter (·.1 ≠ l) }

def erase (fs : FileSystem) (l : Location) : FileSystem :=
  { fs with nodes := fs.nodes.filter (·.1 ≠ l) }

/-- Goes from a directory to the directory of that name. -/
def enter (fs : FileSystem) (l : Location) (name : String) : Except FileError Location :=
  if name = "." then .ok l
  else if name = ".." then .ok l.dropLast
  else if name.utf8ByteSize > 255 then .error .nameTooLong
  else
    match fs.node? (l ++ [name]) with
    | some .directory => .ok (l ++ [name])
    | some (.file _) => .error .notADirectory
    | none => .error .notFound

/-- Where a path leads but for its last name. There is none if it stands for a directory by itself. -/
def parent (fs : FileSystem) (p : Path) : Except FileError (Location × Option String) := do
  if p.size = 0 then throw .notFound
  if p.size ≥ 4096 then throw .nameTooLong
  let start := if p.absolute then [] else fs.here
  let dir ← p.names.dropLast.foldlM fs.enter start
  match p.names.getLast? with
  | none => pure (dir, none)
  | some "." | some ".." => pure (dir, none)
  | some name => if name.utf8ByteSize > 255 then throw .nameTooLong else pure (dir, some name)

def read (fs : FileSystem) (path : String) : Except FileError Bytes := do
  let p := Path.ofString path
  match ← fs.parent p with
  | (_, none) => throw .isADirectory
  | (dir, some name) =>
    match fs.node? (dir ++ [name]) with
    | none => throw .notFound
    | some .directory => throw .isADirectory
    | some (.file content) => if p.endsInSlash then throw .notADirectory else pure content

/-- Creates the file, or replaces its content. -/
def write (fs : FileSystem) (path : String) (content : Bytes) : Except FileError FileSystem := do
  let p := Path.ofString path
  match ← fs.parent p with
  | (_, none) => throw .isADirectory
  | (dir, some name) =>
    if p.endsInSlash ∨ fs.node? (dir ++ [name]) = some .directory then throw .isADirectory
    else pure (fs.put (dir ++ [name]) (.file content))

/-- Moves a file to another name, in place of a file of that name. Only files are moved. -/
def rename (fs : FileSystem) (source target : String) : Except FileError FileSystem := do
  let p := Path.ofString source
  let q := Path.ofString target
  match ← fs.parent p, ← fs.parent q with
  | (dir, some name), (dir', some name') =>
    match fs.node? (dir ++ [name]) with
    | none => throw .notFound
    | some .directory => throw .isADirectory
    | some (.file content) =>
      if p.endsInSlash ∨ q.endsInSlash then throw .notADirectory
      else if fs.node? (dir' ++ [name']) = some .directory then throw .isADirectory
      else pure ((fs.erase (dir ++ [name])).put (dir' ++ [name']) (.file content))
  | _, _ => throw .busy

end FileSystem
end Promela
