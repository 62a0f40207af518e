import Pipewright.Error
import Pipewright.Keyed
import Pipewright.Time

/-!
# Files

Paths as texts, and the directories and files of which a store consists.
-/

/-!
## Paths

A path is a text. As a text it is put together and taken apart, so that messages
show it as it was given: its *parts* are what stands between slashes, without
empty parts and without single dots, except that a dot at the very front of a
relative path counts, and the last part names a file if it is not a pair of
dots. Where a path leads is another matter. There every dot is a step, and
`Ending` tells apart the ends that matter when something is to be made.
-/

namespace Pipewright.Path

/-- The text up to the last slash, the slash included, and what follows it. -/
def splitLast (cs : List Char) : List Char × List Char :=
  let back := cs.reverse
  ((back.dropWhile (· ≠ '/')).reverse, (back.takeWhile (· ≠ '/')).reverse)

/-- A text read backwards, without slashes and single dots at its end. The very
first character is kept. -/
def trimBack : List Char → List Char
  | ['/'] => ['/']
  | '/' :: rest => trimBack rest
  | ['.', '/'] => ['/']
  | '.' :: '/' :: rest => trimBack ('/' :: rest)
  | cs => cs

/-- The path without slashes and single dots at its end. -/
def trimEnd (cs : List Char) : List Char :=
  (trimBack cs.reverse).reverse

/-- The part that names a file, if there is one. -/
def fileNameChars? (cs : List Char) : Option (List Char) :=
  let last := (splitLast (trimEnd cs)).2
  if last = [] ∨ last = ['.'] ∨ last = ['.', '.'] then none else some last

/-- The name of the file that a path leads to. -/
def fileName? (p : String) : Option String :=
  (fileNameChars? p.toList).map String.ofList

/-- The path to the directory that holds the last part; nothing for the root and
for a path without parts. -/
def parentChars? (cs : List Char) : Option (List Char) :=
  let t := trimEnd cs
  if t = [] ∨ t = ['/'] then none else some (trimEnd (splitLast t).1)

/-- The path to the directory that holds the last part. -/
def parent? (p : String) : Option String :=
  (parentChars? p.toList).map String.ofList

/-- One path followed by another; an absolute second path stands alone. -/
def join (base p : String) : String :=
  if p.toList.head? = some '/' ∨ base = "" then p
  else if base.toList.getLast? = some '/' then base ++ p
  else base ++ "/" ++ p

/-- The path with the name of its file replaced; a path that names no file gets one
more part. -/
def withFileName (p name : String) : String :=
  match fileName? p with
  | none => join p name
  | some _ => join ((parent? p).getD "") name

/-- A file name without its last extension. A point at the very front starts none. -/
def stemOf (name : List Char) : List Char :=
  let (front, back) := ((name.reverse.dropWhile (· ≠ '.')).reverse, name)
  match front with
  | [] => back
  | ['.'] => back
  | front => front.dropLast

/-- The name of the file that a path leads to, without its last extension. -/
def stem? (p : String) : Option String :=
  (fileNameChars? p.toList).map fun cs => String.ofList (stemOf cs)

/-- What stands between slashes, beginning with what has been read of the first
piece, backwards. -/
def piecesFrom (piece : List Char) : List Char → List String
  | [] => [String.ofList piece.reverse]
  | '/' :: rest => String.ofList piece.reverse :: piecesFrom [] rest
  | c :: rest => piecesFrom (c :: piece) rest

/-- The steps of a path, outermost first: what stands between slashes and is not
empty. A single dot is a step that leads nowhere else. -/
def steps (p : String) : List String :=
  (piecesFrom [] p.toList).filter (· ≠ "")

def isAbsolute (p : String) : Bool := p.toList.head? == some '/'

inductive Ending where
  /-- With a name. -/
  | name
  /-- With a name and a slash, which can only mean a directory. -/
  | slash
  /-- With dots or with the root, which are directories that have their names elsewhere. -/
  | dots
  deriving DecidableEq, Repr

def ending (p : String) : Ending :=
  match (steps p).getLast? with
  | none => .dots
  | some last =>
    if last = "." ∨ last = ".." then .dots
    else if p.toList.getLast? = some '/' then .slash
    else .name

/-- The paths to the directories around a path that is read backwards, innermost
first. -/
def aroundBack : List Char → List (List Char)
  | [] => []
  | ['/'] => [['/']]
  | '/' :: rest => if trimBack rest = rest then rest :: aroundBack rest else aroundBack rest
  | _ :: rest => aroundBack rest

/-- The paths to the directories around a path, innermost first; the working directory
is not among them. -/
def around (p : String) : List String :=
  (aroundBack (trimBack p.toList.reverse)).map fun cs => String.ofList cs.reverse

end Pipewright.Path

/-!
## The store

All files an engine works on, as one value: what stands at which place, where a
place is the list of names that lead to it from the root. One place is the
`home`, the working directory from which relative paths are counted; it and the
directories around it are always there.

Operations follow paths step by step. Every step but the last has to lead to a
directory, a name has at most 255 bytes, a dot stays and a pair of dots leads
back out. A fault on the way is reported before anything about the last step is.
-/

namespace Pipewright

-- Bytes are compared as in the core library, whatever other instances there are.
attribute [local instance (high)] ByteArray.instDecidableEq

inductive Store.Entry where
  | file (bytes : ByteArray) (modified : Instant)
  | directory
  deriving DecidableEq

structure Store where
  entries : List (List String × Store.Entry) := []
  /-- The working directory. -/
  home : List String := ["home"]

namespace Store

def at? (s : Store) (place : List String) : Option Entry :=
  if place.isPrefixOf s.home then some .directory else s.entries.lookup place

def put (s : Store) (place : List String) (e : Entry) : Store :=
  { s with entries := (place, e) :: s.entries.filter (·.1 ≠ place) }

def remove (s : Store) (place : List String) : Store :=
  { s with entries := s.entries.filter (·.1 ≠ place) }

/-- What was put is there, and at no other place is anything changed. -/
theorem at?_put {s : Store} {place : List String} (h : place.isPrefixOf s.home = false)
    (e : Entry) (other : List String) :
    (s.put place e).at? other = if other = place then some e else s.at? other := by
  simp only [at?, put]
  rw [Keyed.lookup_cons_if, Keyed.lookup_filter_ne]
  by_cases hp : other = place
  · subst hp
    simp [h]
  · simp [hp]

/-- What was removed is gone, and at no other place is anything changed. -/
theorem at?_remove {s : Store} {place : List String} (h : place.isPrefixOf s.home = false)
    (other : List String) :
    (s.remove place).at? other = if other = place then none else s.at? other := by
  simp only [at?, remove]
  rw [Keyed.lookup_filter_ne]
  by_cases hp : other = place
  · subst hp
    simp [h]
  · simp [hp]

/-! ### Following paths -/

def isLong (name : String) : Bool := 255 < name.utf8ByteSize

/-- The place that steps lead to from a place; nothing need stand there. -/
def follow (s : Store) (place : List String) : List String → Except FileFault (List String)
  | [] => .ok place
  | step :: rest =>
    match s.at? place with
    | none => .error .notFound
    | some (.file ..) => .error .notDirectory
    | some .directory =>
      if step = "." then follow s place rest
      else if step = ".." then follow s place.dropLast rest
      else if isLong step then .error .nameTooLong
      else follow s (place ++ [step]) rest

def origin (s : Store) (p : String) : Except FileFault (List String) :=
  if p.toList.contains '\x00' then .error .nullInPath
  else if p = "" then .error .notFound
  else if 4096 ≤ p.utf8ByteSize then .error .nameTooLong
  else .ok (if Path.isAbsolute p then [] else s.home)

/-- The place that a path leads to; nothing need stand there. -/
def locate (s : Store) (p : String) : Except FileFault (List String) := do
  s.follow (← s.origin p) (Path.steps p)

/-- The place of the directory that the last step of a path is taken in. -/
def locateHolder (s : Store) (p : String) : Except FileFault (List String) := do
  s.follow (← s.origin p) ((Path.steps p).dropLast ++ ["."])

/-- What a path leads to. A path with a slash at its end leads to no file. -/
def find (s : Store) (p : String) : Except FileFault Entry := do
  match s.at? (← s.locate p) with
  | none => throw .notFound
  | some .directory => return .directory
  | some (.file bytes t) =>
    if Path.ending p = .slash then throw .notDirectory else return .file bytes t

/-! ### Reading -/

def readBytes (s : Store) (p : String) : Except FileFault ByteArray := do
  match ← s.find p with
  | .file bytes _ => return bytes
  | .directory => throw .isDirectory

def readText (s : Store) (p : String) : Except FileFault String := do
  match String.fromUTF8? (← s.readBytes p) with
  | some text => return text
  | none => throw .notUtf8

def isFile (s : Store) (p : String) : Bool :=
  match s.find p with
  | .ok (.file ..) => true
  | _ => false

def isDirectory (s : Store) (p : String) : Bool :=
  match s.find p with
  | .ok .directory => true
  | _ => false

def exists? (s : Store) (p : String) : Bool :=
  match s.find p with
  | .ok _ => true
  | .error _ => false

/-- When a file was last written; nothing if the path leads to no file. -/
def modified? (s : Store) (p : String) : Option Instant :=
  match s.find p with
  | .ok (.file _ t) => some t
  | _ => none

/-- The name under which a place stands in a directory. -/
def nameIn (dir place : List String) : Option String :=
  match place.reverse with
  | [] => none
  | name :: back => if back.reverse = dir then some name else none

def list (s : Store) (p : String) : Except FileFault (List String) := do
  match ← s.find p with
  | .directory =>
    let dir ← s.locate p
    return ((s.entries.filterMap fun e => nameIn dir e.1).mergeSort (· ≤ ·))
  | .file .. => throw .notDirectory

/-! ### Making directories -/

/-- The store with a directory made, where nothing stands yet. -/
def makeDir (s : Store) (p : String) : Except FileFault Unit × Store :=
  match s.locate p with
  | .error fault => (.error fault, s)
  | .ok place =>
    if Path.ending p = .dots ∨ (s.at? place).isSome then (.error .alreadyExists, s)
    else (.ok (), s.put place .directory)

/-- The store after a directory was to be made: it is no fault if there is one. -/
def orDirectory (p : String) (r : Except FileFault Unit × Store) :
    Except FileFault Unit × Store :=
  if r.2.isDirectory p then (.ok (), r.2) else r

/-- The store with the first of the directories made, each of which lies in the next
one. Those further out are made only if they are missed. -/
def makeInner (s : Store) : List String → Except FileFault Unit × Store
  | [] => (.ok (), s)
  | p :: outer =>
    match s.makeDir p with
    | (.error .notFound, s) =>
      match s.makeInner outer with
      | (.ok _, s) => orDirectory p (s.makeDir p)
      | r => r
    | r => orDirectory p r

/-- The store with a directory made, and those that lead to it. What could be made
before a fault stays. -/
def makeDirs (s : Store) (p : String) : Except FileFault Unit × Store :=
  if p = "" then (.ok (), s) else s.makeInner (p :: Path.around p)

/-! ### Writing -/

/-- The directory that holds what a path leads to. -/
def holder (p : String) : String :=
  match Path.parent? p with
  | some d => if d = "" then "." else d
  | none => "."

/-- The place of a path at which a file can be or be made. In front of a slash the last
name is not even looked at, since no file can be there. -/
def site (s : Store) (p : String) : Except FileFault (List String) := do
  if Path.ending p = .slash then
    let _ ← s.locateHolder p
    throw .isDirectory
  let place ← s.locate p
  if Path.ending p = .dots ∨ s.at? place = some .directory then throw .isDirectory
  return place

/-- The store with a file at a path, which is empty unless it was there before, and the
file's place. -/
def create (s : Store) (p : String) (now : Instant) : Except FileFault (List String) × Store :=
  match s.site p with
  | .error fault => (.error fault, s)
  | .ok place =>
    if (s.at? place).isSome then (.ok place, s) else (.ok place, s.put place (.file .empty now))

/-- The store with a file at a path, made from what was in it. -/
def putFile (s : Store) (p : String) (now : Instant) (f : ByteArray → ByteArray) :
    Except FileFault Unit × Store :=
  match s.create p now with
  | (.error fault, s) => (.error fault, s)
  | (.ok place, s) =>
    let old := match s.at? place with
      | some (.file bytes _) => bytes
      | _ => .empty
    (.ok (), s.put place (.file (f old) now))

/-- The place of a path to which a file can be moved; a file that is there gives way. -/
def landing (s : Store) (p : String) : Except FileFault (List String) := do
  let place ← s.locate p
  match Path.ending p with
  | .dots => throw .busy
  | .slash => throw .notDirectory
  | .name =>
    match s.at? place with
    | some .directory => throw .isDirectory
    | _ => return place

/-- The path, from the root, under which a new file is written in a directory until it
is whole. -/
def draft (s : Store) (dir : String) : String :=
  Path.join (Path.join ("/" ++ "/".intercalate s.home) dir) ".tmp-xxxxxx"

/-- The store with a new file moved to a path, whose directory is made first. A reader
sees the old or the new contents, never a part. -/
def replace (s : Store) (p : String) (bytes : ByteArray) (now : Instant) :
    Except FileFault Unit × Store :=
  match s.makeDirs (holder p) with
  | (.error fault, s) => (.error fault, s)
  | (.ok _, s) =>
    match s.origin (s.draft (holder p)), s.landing p with
    | .error fault, _ | .ok _, .error fault => (.error fault, s)
    | .ok _, .ok place => (.ok (), s.put place (.file bytes now))

/-- The store with a file at a path, whose directory is made first, made from what was
in it. -/
def update (s : Store) (p : String) (now : Instant) (f : ByteArray → ByteArray) :
    Except FileFault Unit × Store :=
  match s.makeDirs (holder p) with
  | (.error fault, s) => (.error fault, s)
  | (.ok _, s) => s.putFile p now f

/-- The store with bytes added at the end of a file. -/
def append (s : Store) (p : String) (bytes : ByteArray) (now : Instant) :
    Except FileFault Unit × Store :=
  s.update p now (· ++ bytes)

/-- The store with a file moved to another path; a file that was there is gone. -/
def move (s : Store) (source target : String) : Except FileFault Unit × Store :=
  match s.locate source, s.landing target with
  | .error fault, _ => (.error fault, s)
  | .ok _, .error fault => (.error fault, s)
  | .ok a, .ok b =>
    match s.at? a with
    | none => (.error .notFound, s)
    | some .directory => (.error .isDirectory, s)
    | some (.file bytes t) => (.ok (), (s.remove a).put b (.file bytes t))

end Store

end Pipewright
