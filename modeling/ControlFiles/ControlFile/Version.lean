import ControlFiles.ControlFile.Write
import ControlFiles.Files.Store

/-!
# Versions

An edited control file is written beside its source, under the next name of the sequence
`model.tcf`, `model_001.tcf`, `model_002.tcf`, … that is free.
-/

namespace ControlFiles

namespace Path

/-- The number with zeros before it, up to a width. -/
def padded (width n : Nat) : Text :=
  let digits := Text.decimal n
  List.replicate (width - digits.length) '0' ++ digits

/-- The number of the version after the one that some digits write; a number of 64 bits or more
counts as none. -/
def nextNumber (digits : Text) : Nat :=
  match Text.number? digits with
  | some n => if n < Text.numberLimit then n + 1 else 1
  | none => 1

/-- The stem after a stem in the sequence of versions; the width of a number is kept. -/
def nextStem (stem : Text) : Text :=
  match cutLast? '_' stem with
  | some (base, digits) =>
    if (Text.number? digits).isSome then
      base ++ "_" ++ padded digits.length (nextNumber digits)
    else stem ++ "_001"
  | none => stem ++ "_001"

/-- The path after a path in the sequence of versions. -/
def nextVersion (p : Path) : Path :=
  let stem := nextStem (p.stem?.getD [])
  p.withFileName <|
    match p.extension? with
    | some extension => stem ++ "." ++ extension
    | none => stem

/-- The first of a path and the versions after it, within `tries` steps, that is not taken. -/
def freeVersion {m : Type → Type} [Monad m] (taken : Path → m Bool) :
    (tries : Nat) → Path → m Path
  | 0, p => return p
  | tries + 1, p => do
    if ← taken p then freeVersion taken tries p.nextVersion else return p

/-- The numbers of versions have less than 64 bits, so no more versions than this are ever
taken. -/
def versionLimit : Nat := Text.numberLimit

end Path

/-- The path that the next version of a file is written to. -/
def Files.freeVersion {m : Type → Type} [Monad m] (files : Files m) (p : Path) : m Path :=
  Path.freeVersion (fun q => do return (← files.canonical q).toBool) Path.versionLimit p.nextVersion

/-- The path that the next version of a file in a store is written to. The versions are pairwise
distinct, so of as many as there are entries, and one more, some is free. -/
def Store.freeVersion (s : Store) (p : Path) : Path :=
  Id.run (Path.freeVersion (fun q => s.holds q) (s.entries.length + 1) p.nextVersion)

/-- The store with the next version of a control file, and its path. -/
def Store.writeVersion (s : Store) (f : ControlFile) : Except Fault (Store × Path) :=
  f.toText.map fun text =>
    let target := s.freeVersion f.path
    (s.write target text, target)

end ControlFiles
