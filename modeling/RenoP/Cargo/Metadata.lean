import Mathlib.Data.Char
import Mathlib.Data.List.Lex
import RenoP.Cargo.IndexFile
import RenoP.Lib.JSONText
import RenoP.Lib.Fallible
import RenoP.Review.Tasks

/-!
# Metadata of a publication

`model.go`, `metadata.go` and `readPublishHeader` of `internal/service/cargo`, and the index entry
that `publish` makes. The decoder of the request is a parameter.
-/

namespace RenoP.Cargo

open RenoP.Database (Text trimSpace)
open RenoP.Review (byteLength)
open Lines (Bytes)
open JSONText (Value)

structure PublishDependency where
  name : Text
  versionReq : Text
  features : List Text
  optional : Bool
  defaultFeatures : Option Bool
  target : Option Text
  kind : Text
  registry : Option Text
  explicitNameInToml : Option Text

/-- `map[string][]string`; a list that is `nil` is `none`. -/
abbrev FeatureMap := GoMap Text (Option (List Text))

structure PublishMetadata where
  name : Text
  version : Text
  description : Text
  deps : List PublishDependency
  features : FeatureMap
  features2 : FeatureMap
  links : Option Text
  rustVersion : Option Text

inductive MetadataError where
  | crateName
  | crateVersion
  | dependencyName
  | dependencyRequirement
  | dependencyAlias
  | dependencyKind
  | dependencyMetadata
  | dependencyFeature
  | publishMetadata
  | featureName
  | featureMember
  deriving DecidableEq

/-- `con`, `prn`, `aux`, `nul`, and `com` and `lpt` with a digit from 1 to 9. -/
def reservedName (lower : Text) : Bool :=
  decide (lower ∈ [['c', 'o', 'n'], ['p', 'r', 'n'], ['a', 'u', 'x'], ['n', 'u', 'l']]) ||
    match lower with
    | [a, b, c, d] => decide ([a, b, c] ∈ [['c', 'o', 'm'], ['l', 'p', 't']]) &&
        decide ('1' ≤ d) && decide (d ≤ '9')
    | _ => false

def validateCrateName (name : Text) : Except MetadataError Unit :=
  match name with
  | [] => .error .crateName
  | first :: rest =>
    if name.length > 64 ∨ first.isAlpha = false then .error .crateName
    else if !rest.all fun c => c.isAlphanum || c == '-' || c == '_' then .error .crateName
    else if reservedName (name.map Char.toLower) then .error .crateName
    else .ok ()

def validatePackage (semver : Semver) (name version : Text) : Except MetadataError Unit :=
  match validateCrateName name with
  | .error err => .error err
  | .ok () =>
    if version = [] ∨ byteLength version > 128 ∨ semver.isValid ('v' :: version) = false then
      .error .crateVersion
    else .ok ()

def validMetadataText (value : Text) (max : ℕ) (allowEmpty : Bool) : Bool :=
  if (!allowEmpty && decide (value = [])) || decide (byteLength value > max) then false
  else !value.any fun c => c == '\x00' || c == '\r' || c == '\n'

def validOptionalMetadataText (value : Option Text) (max : ℕ) : Bool :=
  value.all fun value => validMetadataText value max true

def validateFeatureMap (features : FeatureMap) : Except MetadataError Unit :=
  if !features.entries.all fun e => validMetadataText e.1 1024 true then .error .featureName
  else if !features.entries.all fun e => (e.2.getD []).all fun member =>
      validMetadataText member 1024 true then .error .featureMember
  else .ok ()

def validatePublishMetadata (m : PublishMetadata) : Except MetadataError Unit :=
  if !validOptionalMetadataText m.links 1024 || !validOptionalMetadataText m.rustVersion 128 ||
      !validMetadataText m.description 4000 true then .error .publishMetadata
  else match validateFeatureMap m.features with
  | .error err => .error err
  | .ok () => validateFeatureMap m.features2

def kindNormal : Text := ['n', 'o', 'r', 'm', 'a', 'l']
def kindDev : Text := ['d', 'e', 'v']
def kindBuild : Text := ['b', 'u', 'i', 'l', 'd']

def indexDependency (toLower : Char → Char) (dep : PublishDependency) :
    Except MetadataError IndexDependency :=
  if (validateCrateName dep.name).isOk = false then .error .dependencyName
  else if !validMetadataText dep.versionReq 1024 false then .error .dependencyRequirement
  else
    let explicit := dep.explicitNameInToml.map trimSpace
    if explicit.any fun name => !(validateCrateName name).isOk then .error .dependencyAlias
    else
      let written := (trimSpace dep.kind).map toLower
      let kind := if written = [] then kindNormal else written
      if kind ≠ kindNormal ∧ kind ≠ kindDev ∧ kind ≠ kindBuild then .error .dependencyKind
      else if !validOptionalMetadataText dep.target 4096 ||
          !validOptionalMetadataText dep.registry 4096 then .error .dependencyMetadata
      else if !dep.features.all fun feature => validMetadataText feature 1024 true then
        .error .dependencyFeature
      else .ok {
        name := explicit.getD dep.name
        requirement := dep.versionReq
        features := dep.features
        optional := dep.optional
        defaultFeatures := dep.defaultFeatures.getD true
        target := dep.target
        kind := kind
        registry := dep.registry
        package := if explicit.isSome then some dep.name else none }

def indexDependencies (toLower : Char → Char) (deps : List PublishDependency) :
    Except MetadataError (List IndexDependency) :=
  deps.mapM (indexDependency toLower)

def maxMetadataSize : ℕ := 2 ^ 20
def maxCrateSize : ℕ := 128 * 2 ^ 20

/-- `binary.LittleEndian.Uint32` of the first four bytes, which are read off the body. -/
def readUint32 : Bytes → Option (ℕ × Bytes)
  | a :: b :: c :: d :: rest =>
    some (a.toNat + 256 * b.toNat + 65536 * c.toNat + 16777216 * d.toNat, rest)
  | _ => none

/-- `readPublishHeader`; `decode` finds one JSON value and nothing after it. -/
def readPublishHeader (decode : Bytes → Option PublishMetadata) (body : Bytes) (contentLength : ℤ) :
    Option (PublishMetadata × ℕ) :=
  match readUint32 body with
  | none => none
  | some (metadataLength, rest) =>
    if metadataLength = 0 ∨ metadataLength > maxMetadataSize ∨ rest.length < metadataLength then none
    else match decode (rest.take metadataLength) with
    | none => none
    | some metadata =>
      match readUint32 (rest.drop metadataLength) with
      | none => none
      | some (crateLength, _) =>
        if crateLength = 0 ∨ crateLength > maxCrateSize then none
        else if contentLength > 0 ∧ contentLength ≠ (metadataLength : ℤ) + crateLength + 8 then none
        else some (metadata, crateLength)

def uint32 (n : ℕ) : Bytes :=
  [UInt8.ofNat n, UInt8.ofNat (n / 256), UInt8.ofNat (n / 65536), UInt8.ofNat (n / 16777216)]

theorem readUint32_uint32 {n : ℕ} (h : n < 2 ^ 32) (rest : Bytes) :
    readUint32 (uint32 n ++ rest) = some (n, rest) := by
  simp only [uint32, List.cons_append, List.nil_append, readUint32, UInt8.toNat_ofNat']
  congr 2
  omega

theorem readPublishHeader_body {decode : Bytes → Option PublishMetadata} {raw crate : Bytes}
    {m : PublishMetadata} (hdecode : decode raw = some m) (hraw : 0 < raw.length)
    (hrawMax : raw.length ≤ maxMetadataSize) (hcrate : 0 < crate.length)
    (hcrateMax : crate.length ≤ maxCrateSize) :
    readPublishHeader decode (uint32 raw.length ++ (raw ++ (uint32 crate.length ++ crate))) 0 =
      some (m, crate.length) := by
  unfold maxMetadataSize at hrawMax
  unfold maxCrateSize at hcrateMax
  unfold readPublishHeader
  rw [readUint32_uint32 (by omega)]
  simp only [List.length_append, List.take_left, List.drop_left, hdecode]
  rw [readUint32_uint32 (by omega)]
  rw [if_neg (by unfold maxMetadataSize; omega)]
  simp only
  rw [if_neg (by unfold maxCrateSize; omega), if_neg (by omega)]

def publishRustVersion (m : PublishMetadata) (manifestRustVersion : Text) : Option Text :=
  let rustVersion := m.rustVersion.getD []
  let rustVersion := if rustVersion = [] then manifestRustVersion else rustVersion
  if rustVersion = [] then none else some rustVersion

def FeatureMap.pairs (features : FeatureMap) : List (Text × List Text) :=
  features.entries.map fun e => (e.1, e.2.getD [])

def publishEntry (m : PublishMetadata) (deps : List IndexDependency) (checksum : Text)
    (manifestRustVersion : Text) : IndexEntry where
  name := m.name
  version := m.version
  deps := deps
  checksum := checksum
  features := FeatureMap.pairs m.features
  yanked := false
  links := m.links
  features2 := FeatureMap.pairs m.features2
  rustVersion := publishRustVersion m manifestRustVersion
  schema := if m.features2.entries = [] then 0 else 2

def optionalText : Option Text → Value
  | none => .null
  | some s => .str s

def dependencyValue (d : IndexDependency) : Value := .obj [
  (['n', 'a', 'm', 'e'], .str d.name),
  (['r', 'e', 'q'], .str d.requirement),
  (['f', 'e', 'a', 't', 'u', 'r', 'e', 's'], .arr (d.features.map .str)),
  (['o', 'p', 't', 'i', 'o', 'n', 'a', 'l'], .bool d.optional),
  (['d', 'e', 'f', 'a', 'u', 'l', 't', '_', 'f', 'e', 'a', 't', 'u', 'r', 'e', 's'],
    .bool d.defaultFeatures),
  (['t', 'a', 'r', 'g', 'e', 't'], optionalText d.target),
  (['k', 'i', 'n', 'd'], .str d.kind),
  (['r', 'e', 'g', 'i', 's', 't', 'r', 'y'], optionalText d.registry),
  (['p', 'a', 'c', 'k', 'a', 'g', 'e'], optionalText d.package)]

def membersValue : Option (List Text) → Value
  | none => .null
  | some members => .arr (members.map .str)

def featuresValue (features : FeatureMap) : Value :=
  .obj ((features.entries.map fun e => (e.1, membersValue e.2)).mergeSort fun a b =>
    decide (a.1 ≤ b.1))

/-- The JSON value of the entry; empty fields that are marked `omitempty` are left out. -/
def entryValue (m : PublishMetadata) (deps : List IndexDependency) (checksum : Text)
    (manifestRustVersion : Text) : Value := .obj (
  [(['n', 'a', 'm', 'e'], .str m.name),
    (['v', 'e', 'r', 's'], .str m.version),
    (['d', 'e', 'p', 's'], .arr (deps.map dependencyValue)),
    (['c', 'k', 's', 'u', 'm'], .str checksum),
    (['f', 'e', 'a', 't', 'u', 'r', 'e', 's'], featuresValue m.features),
    (['y', 'a', 'n', 'k', 'e', 'd'], .bool false),
    (['l', 'i', 'n', 'k', 's'], optionalText m.links)] ++
  (if m.features2.entries = [] then []
    else [(['f', 'e', 'a', 't', 'u', 'r', 'e', 's', '2'], featuresValue m.features2)]) ++
  (match publishRustVersion m manifestRustVersion with
    | none => []
    | some rustVersion =>
      [(['r', 'u', 's', 't', '_', 'v', 'e', 'r', 's', 'i', 'o', 'n'], Value.str rustVersion)]) ++
  (if m.features2.entries = [] then [] else [(['v'], Value.num [2])]))

end RenoP.Cargo
