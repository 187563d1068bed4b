import RenoP.Lib.Lines
import RenoP.Database.PublicationQuota

/-!
# Index file of a crate

`internal/service/cargo/index.go` and `sameVersion` of `metadata.go`. The JSON and semver packages
are parameters. A file that does not exist has no reader.
-/

namespace RenoP.Cargo

open RenoP.Database (Text)
open Lines (Bytes)

structure IndexDependency where
  name : Text
  requirement : Text
  features : List Text
  optional : Bool
  defaultFeatures : Bool
  target : Option Text
  kind : Text
  registry : Option Text
  package : Option Text
  deriving DecidableEq

structure IndexEntry where
  name : Text
  version : Text
  deps : List IndexDependency
  checksum : Text
  features : List (Text × List Text)
  yanked : Bool
  links : Option Text
  features2 : List (Text × List Text)
  rustVersion : Option Text
  schema : ℤ
  deriving DecidableEq

structure ValidationEntry where
  name : Text
  version : Text
  deriving DecidableEq

structure JSON where
  encode : IndexEntry → Bytes
  unmarshal : Bytes → Option IndexEntry
  unmarshalValidation : Bytes → Option ValidationEntry

structure Semver where
  isValid : Text → Bool
  compare : Text → Text → ℤ

inductive IndexError where
  | tooLarge
  | invalidEntry
  | nameCollides
  | versionExists
  deriving DecidableEq

def maxIndexSize : ℕ := 16 * 2 ^ 20
def maxIndexLineSize : ℕ := 2 * 2 ^ 20

/-- `strings.EqualFold`, by the simple case folding of each character -/
def equalFold (fold : Char → Char) (s t : Text) : Bool := s.map fold == t.map fold

def sameVersion (semver : Semver) (left right : Text) : Bool :=
  if !semver.isValid ('v' :: left) || !semver.isValid ('v' :: right) then left == right
  else semver.compare ('v' :: left) ('v' :: right) == 0

/-- `bytes.TrimSpace` leaves nothing: the line is white space in UTF-8. -/
def blank : Bytes → Bool
  | [] => true
  | 0xc2 :: b :: line => (b == 0x85 || b == 0xa0) && blank line
  | 0xe1 :: b :: c :: line => (b == 0x9a && c == 0x80) && blank line
  | 0xe2 :: b :: c :: line =>
    (b == 0x80 && ((0x80 ≤ c && c ≤ 0x8a) || c == 0xa8 || c == 0xa9 || c == 0xaf) ||
      b == 0x81 && c == 0x9f) && blank line
  | 0xe3 :: b :: c :: line => (b == 0x80 && c == 0x80) && blank line
  | b :: line => (b == 0x20 || (0x09 ≤ b && b ≤ 0x0d)) && blank line

variable {σ : Type}

def scanLoop (visit : σ → Bytes → Except IndexError σ) : List Bytes → ℕ → σ → Except IndexError σ
  | [], _, s => .ok s
  | token :: tokens, total, s =>
    -- the scanner has no room for the line
    if maxIndexLineSize ≤ token.length then .error .tooLarge
    else
      let line := Lines.dropCR token
      let total := total + (line.length + 1)
      if total > maxIndexSize then .error .tooLarge
      else if blank line then .error .invalidEntry
      else do
        let s ← visit s line
        scanLoop visit tokens total s

/-- `scanIndex`, where the closure `visit` keeps the state of its caller -/
def scanIndex (reader : Option Bytes) (visit : σ → Bytes → Except IndexError σ) (s : σ) :
    Except IndexError σ :=
  match reader with
  | none => .ok s
  | some data => scanLoop visit (Lines.split (data.take (maxIndexSize + 1))) 0 s

/-- `limitedIndexWriter.Write`, after the bytes `wrote` -/
def write (wrote data : Bytes) : Except IndexError Bytes :=
  if wrote.length + data.length > maxIndexSize then .error .tooLarge else .ok (wrote ++ data)

def copyLine (wrote line : Bytes) : Except IndexError Bytes := do
  let wrote ← write wrote line
  write wrote [Lines.newline]

variable (json : JSON) (semver : Semver) (fold : Char → Char)

def encodeEntry (wrote : Bytes) (entry : IndexEntry) : Except IndexError Bytes :=
  write wrote (json.encode entry ++ [Lines.newline])

def readEntry (line : Bytes) : Except IndexError IndexEntry :=
  match json.unmarshal line with
  | none => .error .invalidEntry
  | some entry => if entry.version = [] then .error .invalidEntry else .ok entry

/-- The closure of `rewriteIndex`; the state is what is written and `versionExists`. -/
def visitIndex (entry : IndexEntry) (s : Bytes × Bool) (line : Bytes) :
    Except IndexError (Bytes × Bool) :=
  match json.unmarshalValidation line with
  | none => .error .invalidEntry
  | some current =>
    if current.name = [] ∨ current.version = [] then .error .invalidEntry
    else if !equalFold fold current.name entry.name then .error .nameCollides
    else do
      let wrote ← copyLine s.1 line
      return (wrote, s.2 || sameVersion semver current.version entry.version)

def rewriteIndex (reader : Option Bytes) (entry : IndexEntry) : Except IndexError Bytes := do
  let (wrote, versionExists) ← scanIndex reader (visitIndex json semver fold entry) ([], false)
  if versionExists then throw .versionExists
  encodeEntry json wrote entry

def visitYanked (version : Text) (yanked : Bool) (s : Bytes × Bool) (line : Bytes) :
    Except IndexError (Bytes × Bool) :=
  if s.2 then do return (← copyLine s.1 line, true)
  else do
    let entry ← readEntry json line
    if entry.version ≠ version then return (← copyLine s.1 line, false)
    return (← encodeEntry json s.1 { entry with yanked := yanked }, true)

def rewriteYanked (reader : Option Bytes) (version : Text) (yanked : Bool) :
    Except IndexError (Bytes × Bool) :=
  scanIndex reader (visitYanked json version yanked) ([], false)

/-- `removed`, `remaining` and what is written -/
structure Removal where
  wrote : Bytes
  removed : Bool
  remaining : ℕ

def visitRemoveVersion (version : Text) (s : Removal) (line : Bytes) :
    Except IndexError Removal := do
  let entry ← readEntry json line
  if entry.version = version then return { s with removed := true }
  return { s with wrote := ← copyLine s.wrote line, remaining := s.remaining + 1 }

def rewriteRemoveVersion (reader : Option Bytes) (version : Text) : Except IndexError Removal :=
  scanIndex reader (visitRemoveVersion json version) ⟨[], false, 0⟩

end RenoP.Cargo
