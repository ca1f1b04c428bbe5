import Mylib.Spec.Base.StringUtil

/-!
# `Mylib.Spec.File.FilePath`: the directories of a path

`FilePath::StripTrailingSeparatorsInternal`, `DirName` and `Append` of
`public/file/file_path.cc`, and `CreateDirectory` of `public/file/file_util.cc`.

A position is an `Int`, in which `npos` is `-1`: no string is as long as `2 ^ 63`, so the
unsigned sums of the source are these sums. `stat` and `mkdir` are a parameter.
-/

set_option autoImplicit false

namespace Mylib.Spec.File.FilePath

open Mylib.Spec.Base (Str)

/-- `StringType::npos`. -/
def npos : Int := -1

/-- `kSeparators[0]`. -/
def separator : UInt8 := 47

/-- `kCurrentDirectory`. -/
def kCurrentDirectory : Str := [46]

/-- `IsSeparator`. -/
def isSeparator (character : UInt8) : Bool := character == separator

/-- `FindDriveLetter`. -/
def findDriveLetter (_path : Str) : Int := npos

/-- `path_[pos]`. Behind the last character there is a zero. -/
def charAt (path : Str) (pos : Int) : UInt8 := path.getD pos.toNat 0

/-- `path_.resize(n)`. -/
def resize (path : Str) (n : Int) : Str :=
  path.take n.toNat ++ List.replicate (n.toNat - path.length) 0

/-- `path_.find_last_of(kSeparators, npos, 1)`. -/
def findLastSeparator (path : Str) : Int :=
  match path.reverse.idxOf? separator with
  | some i => path.length - 1 - i
  | none => npos

/-- The loop of `StripTrailingSeparatorsInternal`, from `pos` downwards. -/
def stripLoop (start : Int) : (pos : Nat) → (lastStripped : Int) → Str → Str
  | 0, _, path => path
  | pos + 1, lastStripped, path =>
    if start < pos + 1 ∧ isSeparator (charAt path pos) then
      if (pos + 1 : Int) ≠ start + 1 ∨ lastStripped = start + 2 ∨
          ¬isSeparator (charAt path (start - 1)) then
        stripLoop start pos (pos + 1) (resize path pos)
      else stripLoop start pos lastStripped path
    else path

/-- `StripTrailingSeparatorsInternal`. -/
def stripTrailingSeparatorsInternal (path : Str) : Str :=
  stripLoop (findDriveLetter path + 2) path.length npos path

/-- What `DirName` cuts off between the two calls of `StripTrailingSeparatorsInternal`. -/
def cutBaseName (path : Str) : Str :=
  let letter := findDriveLetter path
  let lastSeparator := findLastSeparator path
  if lastSeparator = npos then resize path (letter + 1)
  else if lastSeparator = letter + 1 then resize path (letter + 2)
  else if lastSeparator = letter + 2 then resize path (letter + 3)
  else if lastSeparator ≠ 0 then resize path lastSeparator
  else path

/-- `DirName`. -/
def dirName (path : Str) : Str :=
  let newPath := stripTrailingSeparatorsInternal
    (cutBaseName (stripTrailingSeparatorsInternal path))
  if newPath.length = 0 then kCurrentDirectory else newPath

/-- `Append`. -/
def append (path component : Str) : Str :=
  if path = kCurrentDirectory then component
  else
    let newPath := stripTrailingSeparatorsInternal path
    let newPath :=
      if 0 < component.length ∧ 0 < newPath.length ∧
          ¬isSeparator (charAt newPath (newPath.length - 1)) ∧
          findDriveLetter newPath + 1 ≠ newPath.length
      then newPath ++ [separator] else newPath
    newPath ++ component

/-! ### `CreateDirectory` -/

/-- The first loop, for at most `fuel` rounds: `subpaths`. `none` where it is still running. -/
def subpathsLoop : (fuel : Nat) → (path lastPath : Str) → (subpaths : List Str) →
    Option (List Str)
  | 0, _, _, _ => none
  | fuel + 1, path, lastPath, subpaths =>
    if path ≠ lastPath then subpathsLoop fuel (dirName path) path (subpaths ++ [path])
    else some subpaths

/-- The file system: `DirectoryExists`, and `mkdir` with whether it succeeds, on the characters
of a path in front of the first zero. -/
structure FileSystem (σ : Type) where
  directoryExists : σ → Str → Bool
  mkdir : σ → Str → Bool × σ

variable {σ : Type} (fs : FileSystem σ)

/-- The second loop, from the last subpath to the first. -/
def makeLoop : (subpaths : List Str) → σ → Bool × σ
  | [], s => (true, s)
  | path :: subpaths, s =>
    let path := path.takeWhile (· ≠ 0)
    if fs.directoryExists s path then makeLoop subpaths s
    else
      let (made, s) := fs.mkdir s path
      if made then makeLoop subpaths s
      else if ¬fs.directoryExists s path then (false, s)
      else makeLoop subpaths s

/-- `CreateDirectory`. -/
def createDirectory (fuel : Nat) (fullPath : Str) (s : σ) : Option (Bool × σ) :=
  (subpathsLoop fuel (dirName fullPath) fullPath [fullPath]).map fun subpaths =>
    makeLoop fs subpaths.reverse s

end Mylib.Spec.File.FilePath
