import Exlic.Lib.Command
import Exlic.Lib.Effects
import Exlic.Py.Json
import Exlic.Py.Paths
import Exlic.Py.Sha1

/-! # The program `exlic.py`

`cli` reads the pickles in order. For each it takes the language from the file name, sends the dict
through `json`, and saves or skips every record: a text whose checksum was seen is skipped, any
other one is written to its path below the directory of the language.

Outside of the source are `fileutils.create_dir`, the limits of the file system on names and paths,
and the encoding of the standard output; they are the fields of `Env`. The state also keeps the
calls, the effects on the tree, and what the two `print`s that are commented out in the source would
have said. -/

namespace Exlic.Cli

open Exlic.Lib.Command Exlic.Lib.Effects Exlic.Lib.FileTree
open Exlic.Py.Strings Exlic.Py.Utf8 Exlic.Py.Json Exlic.Py.Paths
open Exlic.Py.Sha1 (hexdigest)

def underscore : Code := chr '_'

/-! ### The input -/

/-- What a license pickle holds: a dict from repository names to lists of `(repo_path, text)`. -/
structure LicensesByRepo where
  items : List (Str × List (Str × Str))
  nodup : (items.map Prod.fst).Nodup

/-- The dict as `json.dumps` sees it; a tuple is written as a list. -/
def toValue (items : List (Str × List (Str × Str))) : Value :=
  .obj (items.map fun kv => (kv.1, .arr (kv.2.map fun r => .arr [.str r.1, .str r.2])))

/-- An argument: the path of a pickle, and what opening and loading it gives when its turn comes. -/
structure Pickle where
  name : Str
  load : Except Exn LicensesByRepo

/-- The code that is not in the source. -/
structure Env where
  /-- `fileutils.create_dir(location)`: the directories it makes, in order, and what it raises. -/
  createDir : Files → Str → List Place × Option Exn
  /-- Whether the file system takes a path: neither a name in it nor the path is too long. -/
  accepts : Str → Bool
  /-- Whether the standard output can encode a text. -/
  stdout : Str → Bool

/-! ### The state -/

/-- A line of output. -/
inductive Line where
  | typeOfText
  /-- `For: `, where the language could not be encoded. -/
  | forBegun
  | forLanguage (language : Str) (saved skipped : ℕ)
  | total (saved skipped : ℕ)
  deriving DecidableEq

/-- A call that changes the file tree. -/
inductive Call where
  | createDir (fdir : Str)
  | openWb (floc : Str)
  deriving DecidableEq

/-- The path that is asked for. -/
def Call.path : Call → Str
  | createDir fdir => fdir
  | openWb floc => floc

/-- What happens to a record. -/
inductive Decision where
  | saving (floc : Str)
  | skipping (language repoPath : Str)
  deriving DecidableEq

structure State where
  tree : Files
  seen : Finset Str
  licSaved : ℕ
  licSkipped : ℕ
  totLicSaved : ℕ
  totLicSkipped : ℕ
  out : List Line
  calls : List Call
  effects : List (Effect Name UInt8)
  log : List Decision

/-- The state before the first pickle. -/
def State.init (t : Files) : State where
  tree := t
  seen := ∅
  licSaved := 0
  licSkipped := 0
  totLicSaved := 0
  totLicSkipped := 0
  out := []
  calls := []
  effects := []
  log := []

def State.print (l : Line) (s : State) : State := { s with out := s.out ++ [l] }

/-! ### The record loop -/

/-- `fileutils.create_dir(fdir)`. -/
def createDir (env : Env) (fdir : Str) (s : State) : Outcome Exn State :=
  let (made, raised) := env.createDir s.tree fdir
  let s := { s with
    tree := s.tree.mkdirs made
    calls := s.calls ++ [.createDir fdir]
    effects := s.effects ++ made.map .made }
  match raised with
  | none => .ok s
  | some e => .raised e s

/-- `with open(floc, 'wb') as o: o.write(encoded)`. -/
def writeFile (env : Env) (floc : Str) (encoded : Bytes) (s : State) : Outcome Exn State :=
  let s := { s with calls := s.calls ++ [.openWb floc] }
  match locate env.accepts s.tree floc with
  | .error e => .raised e s
  | .ok p =>
    .ok { s with
      tree := (s.tree.put p []).put p encoded
      effects := s.effects ++ [.truncated p, .written p encoded] }

/-- One record: the body of the inner loop. -/
def saveOrSkip (env : Env) (language languageDir : Str) (record : Str × Str) (s : State) :
    Outcome Exn State :=
  let (repoPath, text) := record
  let body : Outcome Exn State :=
    match encode text with
    | none => .raised .unicodeEncodeError s
    | some encoded =>
      let checksum := hexdigest encoded
      if checksum ∈ s.seen then
        .ok { s with
          licSkipped := s.licSkipped + 1
          log := s.log ++ [.skipping language repoPath] }
      else
        let s := { s with seen := insert checksum s.seen }
        let (fdir, _, fname) := rpartition slash repoPath
        let fdir := join languageDir fdir
        (createDir env fdir s).andThen fun s =>
          let floc := join fdir fname
          let s := { s with log := s.log ++ [.saving floc] }
          (writeFile env floc encoded s).andThen fun s =>
            .ok { s with licSaved := s.licSaved + 1 }
  body.onRaise (State.print .typeOfText)

/-- `repo_path, text = record`. What comes back from `json` here is a list of two strings. -/
def unpack : Value → Except Exn (Str × Str)
  | .arr [.str repoPath, .str text] => .ok (repoPath, text)
  | _ => .error .valueError

/-- The loop over the records of a repository. -/
def extractRepo (env : Env) (language languageDir : Str) (repoLicenses : Value) (s : State) :
    Outcome Exn State :=
  match repoLicenses with
  | .arr records =>
    each (fun record s =>
      match unpack record with
      | .error e => .raised e s
      | .ok record => saveOrSkip env language languageDir record s) records s
  | _ => .raised .typeError s

/-! ### The pickle loop -/

/-- The part of the file name before the first underscore. -/
def languageOf (licensePickle : Str) : Str :=
  let (_, _, language) := rpartition slash licensePickle
  let (language, _, _) := partition underscore language
  language

/-- `print('For:', language, 'saved:', lic_saved, 'skipped:', lic_skipped)`: it writes its arguments
one by one, so what comes before the language is written also if this cannot be encoded. -/
def printFor (env : Env) (language : Str) (s : State) : Outcome Exn State :=
  if env.stdout language then
    .ok (s.print (.forLanguage language s.licSaved s.licSkipped))
  else .raised .unicodeEncodeError (s.print .forBegun)

/-- One pickle: the body of the outer loop. -/
def extractPickle (env : Env) (outputDir : Str) (licensePickle : Pickle) (s : State) :
    Outcome Exn State :=
  let language := languageOf licensePickle.name
  let languageDir := join outputDir language
  match licensePickle.load with
  | .error e => .raised e s
  | .ok licensesByRepo =>
    match loads (dumps (toValue licensesByRepo.items)) with
    | none => .raised .jsonDecodeError s
    | some (.obj licensesByRepo) =>
      let s := { s with licSaved := 0, licSkipped := 0 }
      (each (extractRepo env language languageDir) (licensesByRepo.map Prod.snd) s).andThen fun s =>
        (printFor env language s).andThen fun s =>
          .ok { s with
            totLicSaved := s.totLicSaved + s.licSaved
            totLicSkipped := s.totLicSkipped + s.licSkipped }
    | some _ => .raised .attributeError s

/-- `cli(license_pickles, output_dir)` on the file tree `t`. -/
def cli (env : Env) (licensePickles : List Pickle) (outputDir : Str) (t : Files) :
    Outcome Exn State :=
  (each (extractPickle env outputDir) licensePickles (State.init t)).andThen fun s =>
    .ok (s.print (.total s.totLicSaved s.totLicSkipped))

end Exlic.Cli
