/-
`fs/path_parser.c`. A path is its characters up to the NUL, the place a pointer has come to in it the
characters left. Every part is a structure and a buffer of `MAX_PATH` bytes; a store past the buffer
stops, and one through a null pointer is the machine's.
-/
import SimpleMicrokernel.Fs.Name

namespace SimpleMicrokernel.Fs

open Memory

/-- `MAX_PATH`. -/
abbrev maxPath : Nat := 108

/-- `struct path_part` without its link: the parts of a path are a list. -/
structure PathPart where
  part : Ptr (List Byte)
deriving DecidableEq, Repr

/-- `struct path_root`. -/
structure PathRoot where
  drivePath : Int
  first : List (Ptr PathPart)
deriving DecidableEq, Repr

/-- `sizeof(struct path_root)`, `sizeof(struct path_part)`. -/
def sizeofPathRoot : Nat := 8
def sizeofPathPart : Nat := 8

/-- A character of a string, NUL at its end. -/
def charAt (str : List Byte) (i : Nat) : Byte := (str[i]?).getD 0

/-- `strnlen`. -/
def strnlen : List Byte → Nat → Nat
  | [], _ => 0
  | _, 0 => 0
  | c :: cs, max + 1 => if c = 0 then 0 else strnlen cs max + 1

def isDigit (a : Byte) : Bool := 48 ≤ a.toInt ∧ a.toInt ≤ 57

def toNumericDigit (a : Byte) : Int := a.toInt - 48

def pathparserPathValidFormat (str : List Byte) : Bool :=
  let len := strnlen str maxPath
  if len ≤ 3 then false
  else if !isDigit (charAt str 0) then false
  else charAt str 1 = 0x3A ∧ charAt str 2 = 0x2F

/-- The drive and what is left of the path; a path of another form stays where it is. -/
def pathparserGetDriveByPath (path : List Byte) : Int × List Byte :=
  if !pathparserPathValidFormat path then (-1, path)
  else (toNumericDigit (charAt path 0), path.drop 3)

/-- The loop of `pathparser_get_path_part` and the NUL after it, `i` characters stored: the characters
and what is left of the path. Without a buffer nothing is past it. -/
def copyPart (cTemp : Nat) : List Byte → Nat → Except Halt (List Byte × List Byte)
  | path, i =>
    if cTemp ≠ 0 ∧ maxPath ≤ i then .error .outOfBounds
    else match path with
      | [] => .ok ([], [])
      | c :: cs =>
        if c ≠ 0x2F ∧ c ≠ 0 then do
          let (part, path) ← copyPart cTemp cs (i + 1)
          return (c :: part, path)
        else .ok ([], c :: cs)

/-- The characters go to the buffer, which is a value, or through null. -/
def storePart (env : Env) (cTemp : Nat) (part : List Byte) : FsM Unit :=
  if cTemp = 0 then nullStore env 0 (part ++ [0]) else return ()

/-- The part and what is left of the path. A string at null is empty when the parse is over: the call for the next
part finds no memory either, and its NUL goes there. -/
def pathparserGetPathPart (env : Env) (path : List Byte) : FsM (Option (Ptr PathPart) × List Byte) := do
  let temp ← kzalloc env sizeofPathPart
  let cTemp ← kzalloc env maxPath
  let (part, path) ← (copyPart cTemp path 0 : Except Halt (List Byte × List Byte))
  storePart env cTemp part
  let path := if charAt path 0 = 0x2F then path.tail else path
  if part.length = 0 then
    kfree temp
    return (none, path)
  if temp = 0 then
    nullStore env 0 (uint32Bytes (BitVec.ofNat 32 cTemp))
    return (none, path)
  else
    return (some ⟨temp, ⟨⟨cTemp, if cTemp = 0 then [] else part⟩⟩⟩, path)

/-- The loop of `pathparser_create_path_part`: a part takes a character at least, so the characters
left bound the parts left. -/
def createPathPartLoop (env : Env) : Nat → List Byte → FsM (List (Ptr PathPart) × List Byte)
  | 0, _ => throw .hang
  | n + 1, path => do
    let (currentPathPart, path) ← pathparserGetPathPart env path
    match currentPathPart with
    | none => return ([], path)
    | some part =>
      let (next, path) ← createPathPartLoop env n path
      return (part :: next, path)

def pathparserCreatePathPart (env : Env) (path : List Byte) : FsM (List (Ptr PathPart) × List Byte) :=
  createPathPartLoop env (path.length + 1) path

/-- The address of the structure allocated, and the drive that is stored in it. -/
def pathparserCreatePathRoot (env : Env) (path : List Byte) : FsM (Nat × Int × List Byte) := do
  let temp ← kzalloc env sizeofPathRoot
  let (drivePath, path) := pathparserGetDriveByPath path
  if temp = 0 then
    nullStore env 0 (uint32Bytes (BitVec.ofInt 32 drivePath) ++ uint32Bytes 0)
    return (temp, drivePath, path)
  else
    return (temp, drivePath, path)

/-- The address of the first part, null when there is none. -/
def firstAddr : List (Ptr PathPart) → Nat
  | [] => 0
  | part :: _ => part.addr

/-- The root with the parts in it, none for a null pointer. -/
def linkFirst (env : Env) (root : Nat) (drivePath : Int) (first : List (Ptr PathPart)) :
    FsM (Option (Ptr PathRoot)) := do
  if root = 0 then
    nullStore env 4 (uint32Bytes (BitVec.ofNat 32 (firstAddr first)))
    return none
  else
    return some ⟨root, ⟨drivePath, first⟩⟩

def pathparserParse (env : Env) (path : List Byte) : FsM (Option (Ptr PathRoot)) := do
  let (root, drivePath, path) ← pathparserCreatePathRoot env path
  let (first, _) ← pathparserCreatePathPart env path
  linkFirst env root drivePath first

end SimpleMicrokernel.Fs
