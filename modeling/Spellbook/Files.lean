import Spellbook.Text.Utf8
import Spellbook.Text.Quoted
import Spellbook.Number.Shortest
import Spellbook.Grammar.Reader

/-!
# Files

A small store of files, and what opening one of them comes to. Paths are taken apart at slashes; a
directory is there if some file lies below it.
-/

namespace Spellbook

/-- Why a file cannot be opened. -/
inductive OpenRefusal where
  | missing
  | isDirectory
  | throughFile
  deriving DecidableEq, Repr

/-- What opening a path comes to. -/
inductive Opening where
  | refused (reason : OpenRefusal)
  | bytes (bytes : List Nat)
  deriving DecidableEq, Repr

/-- Files by their paths. -/
structure FileStore where
  files : List (String × List Nat)

namespace FileStore

/-- The components of a path, without empty ones and those that stay where they are. -/
def components (path : String) : List String :=
  ((path.toList.splitOn '/').map String.ofList).filter fun c => c != "" && c != "."

/-- Whether a path goes on below `parts`. -/
def isBelow (parts file : List String) : Bool :=
  parts.isPrefixOf file && parts.length < file.length

def hasDirectory (s : FileStore) (parts : List String) : Bool :=
  parts.isEmpty || s.files.any fun (p, _) => isBelow parts (components p)

def file? (s : FileStore) (parts : List String) : Option (List Nat) :=
  (s.files.find? fun (p, _) => components p = parts).map Prod.snd

/-- Follows the components of a path from a directory; `none` is a place outside the store. -/
def follow (s : FileStore) :
    List String → Option (List String) → Except OpenRefusal (Option (List String))
  | [], at' => .ok at'
  | ".." :: cs, at' =>
    match at' with
    | some (p :: ps) => follow s cs (some (p :: ps).dropLast)
    | _ => follow s cs none
  | _ :: _, none => .error .missing
  | c :: cs, some parts =>
    let next := parts ++ [c]
    if s.hasDirectory next then follow s cs (some next)
    else
      match s.file? next with
      | none => .error .missing
      | some _ => if cs.isEmpty then .ok (some next) else .error .throughFile

def openPath (s : FileStore) (path : String) : Opening :=
  if path.isEmpty then .refused .missing
  else
    let start := if path.startsWith "/" then none else some []
    match s.follow (components path) start with
    | .error e => .refused e
    | .ok none => .refused .isDirectory
    | .ok (some parts) =>
      if s.hasDirectory parts then .refused .isDirectory
      else
        match s.file? parts with
        | none => .refused .missing
        | some bs => if path.endsWith "/" then .refused .throughFile else .bytes bs

def place (s : FileStore) (path : String) : Except OpenRefusal (Option (List String)) :=
  s.follow (components path) (if path.startsWith "/" then none else some [])

def leads (s : FileStore) (path : String) : Bool := (s.place path).isOk

def isDirectory (s : FileStore) (path : String) : Bool :=
  match s.place path with
  | .ok (some parts) => s.hasDirectory parts
  | .ok none => true
  | .error _ => false

/-- The names in a directory, in order. -/
def namesIn (s : FileStore) (path : String) : List String :=
  match s.place path with
  | .ok (some parts) =>
    let names := s.files.filterMap fun (p, _) =>
      if isBelow parts (components p) then (components p)[parts.length]? else none
    names.eraseDups.mergeSort (· ≤ ·)
  | _ => []

end FileStore

def OpenRefusal.message (path : String) : OpenRefusal → String
  | missing => "[Errno 2] No such file or directory: " ++ Text.quoted path
  | isDirectory => "[Errno 21] Is a directory: " ++ Text.quoted path
  | throughFile => "[Errno 20] Not a directory: " ++ Text.quoted path

/-- Why bytes are no character, in words. -/
def Text.Utf8.Reason.message : Text.Utf8.Reason → String
  | badStart => "invalid start byte"
  | badContinuation => "invalid continuation byte"
  | cutShort => "unexpected end of data"

/-- The wording of bytes that are no text. -/
def Text.Utf8.Broken.message (b : Text.Utf8.Broken) : String :=
  let place :=
    if b.count = 1 then
      "byte 0x" ++ String.ofList (Text.hexText 2 b.byte) ++ " in position " ++
        Decimal.natText b.position
    else
      "bytes in position " ++ Decimal.natText b.position ++ "-" ++
        Decimal.natText (b.position + b.count - 1)
  "'utf-8' codec can't decode " ++ place ++ ": " ++ b.reason.message

/-- Why a text cannot be read from a path. -/
inductive ReadRefusal where
  | refused (reason : OpenRefusal)
  | notText (broken : Text.Utf8.Broken)
  deriving DecidableEq, Repr

def ReadRefusal.message (path : String) : ReadRefusal → String
  | refused reason => reason.message path
  | notText broken => broken.message

def Opening.text : Opening → Except ReadRefusal String
  | refused reason => .error (.refused reason)
  | bytes bs =>
    match Text.Utf8.decode bs with
    | .ok s => .ok (String.ofList (plainBreaks s.toList))
    | .error b => .error (.notText b)

end Spellbook
