import RegionPooling.Command.Path

/-!
# Files

What a command needs of the world: to read the file at a path and to write one. A `Disk`
offers both in some monad. `Directory` is a disk in memory: one directory with files and
without further directories in it.

A path is followed name by name, from the directory or from the root of the system. Of what
lies outside of the directory only the least is known, and what is written there is not kept.
-/

namespace RegionPooling

/-- Reading and writing files in a monad. -/
structure Disk (m : Type → Type) where
  read : String → m (Except FileError ByteArray)
  write : String → String → m (Except FileError Unit)

/-- A directory with its files. -/
structure Directory where
  files : List (String × ByteArray)

/-- What a path leads to. -/
inductive Place where
  /-- The directory whose files are known. -/
  | inside
  /-- A directory above it. -/
  | above
  /-- The root of the system. -/
  | root
  /-- A directory in the root. -/
  | system (name : String)
  /-- A file with its bytes. -/
  | file (bytes : ByteArray)

namespace Place

/-- Where the way to a place came from. -/
def parent : Place → Place
  | inside => above
  | above => above
  | _ => root

/-- The directories that the root of every system holds. -/
def systemNames : List String :=
  ["bin", "dev", "etc", "home", "lib", "opt", "proc", "root", "run", "sbin", "srv", "sys", "tmp",
    "usr", "var"]

end Place

namespace Directory

def contents? (d : Directory) (name : String) : Option ByteArray := d.files.lookup name

/-- What a place calls by a name of its own. -/
def child? (d : Directory) : Place → String → Option Place
  | .inside, name => (d.contents? name).map .file
  | .root, name => if Place.systemNames.contains name then some (.system name) else none
  -- The file that is always empty.
  | .system "dev", "null" => some (.file .empty)
  | _, _ => none

/-- Goes on from a place by one name. -/
def enter (d : Directory) (place : Place) (name : String) : Except FileError Place :=
  match place with
  -- Not even a dot leads on from a file.
  | .file _ => .error .notDirectory
  | place =>
    if name = "." then .ok place
    else if name = ".." then .ok place.parent
    else if Path.maxNameBytes < name.utf8ByteSize then .error .nameTooLong
    else
      match d.child? place name with
      | some next => .ok next
      | none => .error .notFound

/-- Where a path leads with only these of its names. -/
def follow (d : Directory) (path : Path) (names : List String) : Except FileError Place :=
  names.foldlM d.enter (if path.absolute then .root else .inside)

/-- What the file at a path holds. -/
def read (d : Directory) (text : String) : Except FileError ByteArray := do
  let path ← Path.ofText? text
  match ← d.follow path path.names with
  | .file bytes => if path.slashAfter then throw .notDirectory else return bytes
  | _ => throw .isDirectory

/-- The directory with a file replaced or added. -/
def put (d : Directory) (name : String) (bytes : ByteArray) : Directory :=
  ⟨(name, bytes) :: d.files.filter fun file => file.1 != name⟩

/-- The directory after writing bytes under a name of a place. -/
def putAt (d : Directory) (place : Place) (name : String) (bytes : ByteArray) :
    Except FileError Directory :=
  match place, d.child? place name with
  | .inside, _ => .ok (d.put name bytes)
  | _, none => .ok d
  | _, some (.file _) => .ok d
  | _, some _ => .error .isDirectory

/-- The directory after writing bytes to the file at a path. -/
def write (d : Directory) (text : String) (bytes : ByteArray) : Except FileError Directory := do
  let path ← Path.ofText? text
  let place ← d.follow path path.names.dropLast
  match place, path.names.getLast? with
  -- A path of slashes alone.
  | _, none => throw .isDirectory
  | .file _, some _ => throw .notDirectory
  | place, some name =>
    if name = "." ∨ name = ".." ∨ path.slashAfter then throw .isDirectory
    else if Path.maxNameBytes < name.utf8ByteSize then throw .nameTooLong
    else d.putAt place name bytes

/-- A directory as a disk. -/
def disk : Disk (StateM Directory) where
  read path d := (d.read path, d)
  write path text d :=
    match d.write path text.toUTF8 with
    | .ok after => (.ok (), after)
    | .error error => (.error error, d)

end Directory

end RegionPooling
