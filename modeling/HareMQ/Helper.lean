import HareMQ.Lib.Disk

/-! # Helpers (`mqcommon/helper.hpp`)

`string_helper::split` and `file_helper`. A `file_helper` operation fails when the file it needs is
missing, and whenever the disk says so. -/

namespace HareMQ
open Lib

/-! ### Strings -/

/-- `boost::split` with `token_compress_on`. The flag says that the previous character was a separator,
    so that a run of separators ends one token only. -/
def splitTokens (isSep : Char → Bool) : Bool → List Char → List (List Char)
  | _, [] => [[]]
  | inRun, c :: cs =>
    if isSep c then
      if inRun then splitTokens isSep true cs else [] :: splitTokens isSep true cs
    else (splitTokens isSep false cs).modifyHead (c :: ·)

/-- `string_helper::split`: every character of `sep` separates. -/
def split (str sep : String) : List String :=
  (splitTokens (fun c => sep.toList.contains c) false str.toList).map String.ofList

/-! ### Files -/

namespace FileHelper

/-- `stat` succeeds. -/
def exists? (d : Disk) (fileName : String) : Bool :=
  fileName ≠ "" && ((d.file? fileName).isSome || d.isDir fileName)

/-- The size that `stat` reports, 0 for a missing file. -/
def size (d : Disk) (fileName : String) : Nat := ((d.file? fileName).map List.length).getD 0

/-- `read(char*, offset, len)`: the stream is good only when all `len` bytes were there. -/
def read (d : Disk) (fileName : String) (offset len : Nat) : Option Bytes × Disk :=
  match d.file? fileName with
  | none => (none, d)
  | some data =>
    match d.fate with
    | .ok => (if len = 0 ∨ offset + len ≤ data.length then some (slice data offset len) else none, d.tick)
    | _ => (none, d.tick)

/-- `write(const char*, offset, len)`: the stream is opened `in | out`, which does not create a file. `good()` is looked at
    before `close()`: what the buffer of the stream takes is flushed behind it, and is lost when that fails. So a short
    write fails in sight only when the file cannot be opened, with nothing written. -/
def write (d : Disk) (fileName : String) (offset : Nat) (body : Bytes) : Bool × Disk :=
  match d.file? fileName with
  | none => (false, d)
  | some data =>
    match d.fate with
    | .ok => (true, d.tick.put fileName (overwrite data offset body))
    | .fail written => (false, d.tick.put fileName (overwrite data offset (body.take written)))
    | .lost written => (true, d.tick.put fileName (overwrite data offset (body.take written)))

/-- `create`: an output stream truncates the file. A directory that is missing on the way to it, or a name that is too
    long, is one of the failures that the environment decides. -/
def create (d : Disk) (fileName : String) : Bool × Disk :=
  match d.fate with
  | .ok => (true, d.tick.put fileName [])
  | _ => (false, d.tick)

def remove (d : Disk) (fileName : String) : Bool × Disk :=
  match d.file? fileName with
  | none => (false, d)
  | some _ =>
    match d.fate with
    | .ok => (true, d.tick.drop fileName)
    | _ => (false, d.tick)

def rename (d : Disk) (fileName name : String) : Bool × Disk :=
  match d.file? fileName with
  | none => (false, d)
  | some data =>
    match d.fate with
    | .ok => (true, d.tick.move fileName name data)
    | _ => (false, d.tick)

/-- What `mkdir` returns: 0, or -1 with `errno` equal to `EEXIST` or not. -/
inductive MkdirResult
  | made
  | eexist
  | error
deriving DecidableEq, Repr

def mkdir (d : Disk) (name : String) : MkdirResult × Disk :=
  let path := resolve name
  let parent : Path := { path with parts := path.parts.dropLast }
  if name = "" then (.error, d)
  else if exists? d name then (.eexist, d)
  else if !(parent.parts.isEmpty || d.dirs parent) then (.error, d)
  else
    match d.fate with
    | .ok => (.made, { d.tick with dirs := Function.update d.dirs path true })
    | _ => (.error, d.tick)

/-- The loop of `create_dir`: `made` is the part of the path before `idx`, with every prefix of it that
    ends before a `/` created. A last part without `/` is created too, and must not exist yet. -/
def createDirFrom {σ : Type} (mkdir : σ → String → MkdirResult × σ) (made : List Char) (s : σ) : List Char → Bool × σ
  | [] =>
    if made.isEmpty || made.getLast? = some '/' then (true, s)
    else
      match mkdir s (String.ofList made) with
      | (.made, s) => (true, s)
      | (_, s) => (false, s)
  | '/' :: rest =>
    match mkdir s (String.ofList made) with
    | (.error, s) => (false, s)
    | (_, s) => createDirFrom mkdir (made ++ ['/']) s rest
  | c :: rest => createDirFrom mkdir (made ++ [c]) s rest

def createDir (d : Disk) (path : String) : Bool × Disk := createDirFrom mkdir [] d path.toList

/-- `parent_dir`: the part before the last `/`. -/
def parentDir (fileName : String) : String :=
  if fileName.toList.contains '/' then
    String.ofList ((fileName.toList.reverse.dropWhile (· ≠ '/')).drop 1).reverse
  else "./"

end FileHelper
end HareMQ
