import Mathlib.Data.List.Infix
import RenoP.Lib.Nested
import RenoP.Paths.SanitizePath

/-!
# Conan routes

`Parse` of `internal/service/conan/path.go` and `ConanIdentity` of
`internal/service/nativepkg/artifact.go`, on the bytes of a path.
-/

namespace RenoP.Native.Conan

open RenoP.Paths (Bytes ascii slash)

def alphaNumeric (c : UInt8) : Bool :=
  (0x61 ≤ c && c ≤ 0x7A) || (0x41 ≤ c && c ≤ 0x5A) || (0x30 ≤ c && c ≤ 0x39)

def nameByte (c : UInt8) : Bool :=
  alphaNumeric c || c == 0x5F || c == 0x2B || c == 0x2E || c == 0x2D

def component (value : Bytes) : Bool :=
  if value.length = 0 ∨ 200 < value.length ∨ value = ascii ['.'] ∨ value = ascii ['.', '.'] then
    false
  else value.all nameByte

inductive Operation where
  | root
  | revisions
  | latest
  | search
  | files
  | file
  deriving DecidableEq

structure Path where
  recipe : Bytes
  recipeRevision : Bytes
  package : Bytes
  packageRevision : Bytes
  operation : Operation
  file : Bytes
  pathPrefix : Bytes
  deriving DecidableEq

def joinParts (parts : List Bytes) : Bytes := [slash].intercalate parts

def v2 : Bytes := ascii "v2".toList
def conans : Bytes := ascii "conans".toList
def revisionsWord : Bytes := ascii "revisions".toList
def packagesWord : Bytes := ascii "packages".toList
def latestWord : Bytes := ascii "latest".toList
def searchWord : Bytes := ascii "search".toList
def filesWord : Bytes := ascii "files".toList
def underscore : Bytes := ascii ['_']
def commercialAt : UInt8 := 0x40
def hash : UInt8 := 0x23
def colon : UInt8 := 0x3A

/-- The revisions and the package read so far, `parts[:cursor]` and `parts[cursor:]`. -/
structure Cursor where
  recipeRevision : Bytes
  package : Bytes
  packageRevision : Bytes
  taken : List Bytes
  rest : List Bytes

def revisionAt : List Bytes → Option (Bytes × List Bytes)
  | word :: value :: rest =>
    if word = revisionsWord ∧ component value then some (value, rest) else none
  | _ => none

def Cursor.recipe (cu : Cursor) : Cursor :=
  match revisionAt cu.rest with
  | none => cu
  | some (value, rest) =>
    { cu with
      recipeRevision := value
      taken := cu.taken ++ [revisionsWord, value]
      rest := rest }

def Cursor.binary (cu : Cursor) : Cursor :=
  match revisionAt cu.rest with
  | none => cu
  | some (value, rest) =>
    { cu with
      packageRevision := value
      taken := cu.taken ++ [revisionsWord, value]
      rest := rest }

def Cursor.packages (cu : Cursor) : Cursor :=
  match cu.rest with
  | [] => cu
  | word :: rest =>
    if word = packagesWord ∧ cu.recipeRevision ≠ [] then
      match rest with
      | [] => { cu with taken := cu.taken ++ [packagesWord], rest := [] }
      | value :: rest' =>
        if component value then
          { cu with
            package := value
            taken := cu.taken ++ [packagesWord, value]
            rest := rest' }.binary
        else { cu with taken := cu.taken ++ [packagesWord], rest := rest }
    else cu

def Cursor.noFiles (cu : Cursor) : Bool :=
  cu.recipeRevision = [] ∨ cu.package ≠ [] ∧ cu.packageRevision = []

def Cursor.word (cu : Cursor) (part : Bytes) : Option Operation :=
  if part = revisionsWord ∨ part = latestWord then
    if cu.packageRevision ≠ [] ∨ cu.package = [] ∧ cu.recipeRevision ≠ [] then none
    else if part = revisionsWord then some .revisions else some .latest
  else if part = searchWord then
    if cu.package ≠ [] then none else some .search
  else if part = filesWord then
    if cu.noFiles then none else some .files
  else none

def Cursor.operation (cu : Cursor) : Option (Operation × Bytes) :=
  match cu.rest with
  | [] => some (.root, [])
  | [part] => (cu.word part).map fun operation => (operation, [])
  | part :: file =>
    if part ≠ filesWord ∨ cu.noFiles then none
    else if file.all component = false then none
    else if 1024 < (joinParts file).length then none
    else some (.file, joinParts file)

def recipeName (name version user channel : Bytes) : Bytes :=
  if user ≠ underscore ∨ channel ≠ underscore then
    name ++ slash :: version ++ commercialAt :: user ++ slash :: channel
  else name ++ slash :: version

def parse (relative : Bytes) : Option Path :=
  match relative.splitOn slash with
  | first :: second :: name :: version :: user :: channel :: rest =>
    if first ≠ v2 ∨ second ≠ conans then none
    else if [name, version, user, channel].all component = false then none
    else
      let cu := (Cursor.mk [] [] [] [first, second, name, version, user, channel] rest).recipe
      let cu := cu.packages
      cu.operation.map fun (operation, file) =>
        { recipe := recipeName name version user channel
          recipeRevision := cu.recipeRevision
          package := cu.package
          packageRevision := cu.packageRevision
          operation := operation
          file := file
          pathPrefix := joinParts cu.taken }
  | _ => none

def resourceWord (name : Bytes) : Bool :=
  if name.length = 0 ∨ 255 < name.length ∨ name = ascii ['.'] ∨ name = ascii ['.', '.'] then false
  else if name.head?.any alphaNumeric = false then false
  else if name.getLast?.any (fun c => alphaNumeric c || c == 0x2B) = false then false
  else if ascii ['.', '.'] <:+: name then false
  else name.all nameByte

/-- A part of a name with a slash in it has no `@`, so that a slash in the part is refused. -/
def validNativeResourceName (name : Bytes) : Bool :=
  if name.contains slash then
    match name.dropWhile (· != commercialAt) with
    | [] => false
    | _ :: suffix =>
      match suffix.splitOn slash with
      | [user, channel] =>
        name.length ≤ 255 && resourceWord (name.takeWhile (· != commercialAt)) &&
          resourceWord user && resourceWord channel
      | _ => false
  else resourceWord name

def identityName (name user channel : Bytes) : Bytes :=
  if user ≠ underscore ∨ channel ≠ underscore then name ++ commercialAt :: user ++ slash :: channel
  else name

def identityVersion (version : Bytes) (p : Path) : Bytes :=
  if p.package ≠ [] then
    version ++ hash :: p.recipeRevision ++ colon :: p.package ++ hash :: p.packageRevision
  else version ++ hash :: p.recipeRevision

def conanIdentity (relative : Bytes) : Bytes × Bytes × Bool :=
  match parse relative, relative.splitOn slash with
  | some p, _ :: _ :: name :: version :: user :: channel :: _ =>
    let name := identityName name user channel
    let version := identityVersion version p
    (name, version, validNativeResourceName name && decide (version.length ≤ 255))
  | _, _ => ([], [], false)

theorem component_ne_nil {value : Bytes} (h : component value = true) : value ≠ [] := by
  rintro rfl
  cases h

/-- A non-empty word of the alphabet that is neither `.` nor `..`. -/
def Word (value : Bytes) : Prop :=
  value ≠ [] ∧ value ≠ ascii ['.'] ∧ value ≠ ascii ['.', '.'] ∧ ∀ c ∈ value, nameByte c = true

theorem word_of_component {value : Bytes} (h : component value = true) : Word value := by
  have hne := component_ne_nil h
  unfold component at h
  split_ifs at h with hshape
  rw [not_or, not_or, not_or] at hshape
  exact ⟨hne, hshape.2.2.1, hshape.2.2.2, List.all_eq_true.mp h⟩

theorem plain_of_component {value : Bytes} (h : component value = true) :
    slash ∉ value ∧ commercialAt ∉ value ∧ hash ∉ value ∧ colon ∉ value := by
  have hbytes := (word_of_component h).2.2.2
  refine ⟨fun hc => ?_, fun hc => ?_, fun hc => ?_, fun hc => ?_⟩
  all_goals exact absurd (hbytes _ hc) (by decide)

theorem revisionAt_eq_some {parts rest : List Bytes} {value : Bytes}
    (h : revisionAt parts = some (value, rest)) :
    parts = revisionsWord :: value :: rest ∧ component value = true := by
  unfold revisionAt at h
  split at h
  · split_ifs at h with hword
    cases h
    exact ⟨by rw [hword.1], hword.2⟩
  · cases h

def BinaryOk (binary : Option (Bytes × Bytes)) : Prop :=
  ∀ package revision, binary = some (package, revision) →
    component package = true ∧ component revision = true

structure FileRoute where
  name : Bytes
  version : Bytes
  user : Bytes
  channel : Bytes
  revision : Bytes
  binary : Option (Bytes × Bytes)
  file : List Bytes

def binaryParts : Option (Bytes × Bytes) → List Bytes
  | none => []
  | some (package, revision) => [packagesWord, package, revisionsWord, revision]

/-- The parts before `files`. -/
def FileRoute.owner (r : FileRoute) : List Bytes :=
  [v2, conans, r.name, r.version, r.user, r.channel, revisionsWord, r.revision] ++
    binaryParts r.binary

def FileRoute.parts (r : FileRoute) : List Bytes := r.owner ++ filesWord :: r.file

def FileRoute.path (r : FileRoute) : Path where
  recipe := recipeName r.name r.version r.user r.channel
  recipeRevision := r.revision
  package := (r.binary.map Prod.fst).getD []
  packageRevision := (r.binary.map Prod.snd).getD []
  operation := .file
  file := joinParts r.file
  pathPrefix := joinParts r.owner

structure FileRoute.Ok (r : FileRoute) : Prop where
  names : ∀ part ∈ [r.name, r.version, r.user, r.channel, r.revision], component part = true
  binary : BinaryOk r.binary
  file : ∀ part ∈ r.file, component part = true
  file_ne : r.file ≠ []

theorem word_ne_file {cu : Cursor} {part : Bytes} : cu.word part ≠ some .file := by
  unfold Cursor.word
  split_ifs <;> nofun

theorem operation_file {cu : Cursor} {file : Bytes} (h : cu.operation = some (.file, file)) :
    ∃ parts, cu.rest = filesWord :: parts ∧ parts ≠ [] ∧ (∀ part ∈ parts, component part = true) ∧
      file = joinParts parts ∧ cu.noFiles = false := by
  unfold Cursor.operation at h
  split at h
  · cases h
  · obtain ⟨operation, hword, heq⟩ := Option.map_eq_some_iff.mp h
    cases heq
    exact absurd hword word_ne_file
  · rename_i part parts hne hrest
    split_ifs at h with hfiles hcomponents hlength
    cases h
    rw [not_or, not_not, Bool.not_eq_true] at hfiles
    rw [Bool.not_eq_false, List.all_eq_true] at hcomponents
    exact ⟨parts, by rw [hrest, hfiles.1], hne, hcomponents, rfl, hfiles.2⟩

theorem packages_file {cu : Cursor} {file : Bytes} (hpackage : cu.package = [])
    (hrevision : cu.packageRevision = []) (h : cu.packages.operation = some (.file, file)) :
    ∃ binary, BinaryOk binary ∧ cu.rest = binaryParts binary ++ cu.packages.rest ∧
      cu.packages = ⟨cu.recipeRevision, (binary.map Prod.fst).getD [],
        (binary.map Prod.snd).getD [], cu.taken ++ binaryParts binary, cu.packages.rest⟩ := by
  obtain ⟨parts, hparts, -, -, -, hfiles⟩ := operation_file h
  obtain ⟨recipeRevision, package, packageRevision, taken, rest⟩ := cu
  dsimp only at hpackage hrevision
  subst hpackage hrevision
  unfold Cursor.packages at hparts hfiles ⊢
  cases rest with
  | nil => cases hparts
  | cons word rest =>
    dsimp only at hparts hfiles ⊢
    split_ifs at hparts hfiles ⊢ with hword
    · cases rest with
      | nil => cases hparts
      | cons value rest =>
        dsimp only at hparts hfiles ⊢
        split_ifs at hparts hfiles ⊢ with hvalue
        · unfold Cursor.binary at hparts hfiles ⊢
          dsimp only at hparts hfiles ⊢
          cases hat : revisionAt rest with
          | none =>
            rw [hat] at hfiles
            unfold Cursor.noFiles at hfiles
            exact absurd ⟨component_ne_nil hvalue, rfl⟩ (not_or.mp (of_decide_eq_false hfiles)).2
          | some at' =>
            obtain ⟨revision, rest'⟩ := at'
            obtain ⟨hrest, hcomponent⟩ := revisionAt_eq_some hat
            refine ⟨some (value, revision), ?_, ?_, ?_⟩
            · rintro _ _ ⟨⟩
              exact ⟨hvalue, hcomponent⟩
            · rw [hrest, hword.1]
              rfl
            · simp [binaryParts]
        · cases hparts
          exact absurd (by decide +kernel) hvalue
    · exact ⟨none, nofun, rfl, by rw [binaryParts, List.append_nil]; rfl⟩

theorem exists_fileRoute {relative : Bytes} {p : Path} (h : parse relative = some p)
    (hfile : p.operation = .file) :
    ∃ r : FileRoute, r.Ok ∧ relative.splitOn slash = r.parts ∧ p = r.path := by
  unfold parse at h
  split at h
  · rename_i first second name version user channel rest hsplit
    split_ifs at h with hroute hnames
    rw [not_or, not_not, not_not] at hroute
    rw [Bool.not_eq_false, List.all_eq_true] at hnames
    obtain ⟨⟨operation, file⟩, hoperation, rfl⟩ := Option.map_eq_some_iff.mp h
    dsimp only at hfile
    subst hfile
    obtain ⟨parts, hparts, hne, hcomponents, hjoin, hfiles⟩ := operation_file hoperation
    unfold Cursor.recipe at hoperation hparts hfiles ⊢
    dsimp only at hoperation hparts hfiles ⊢
    cases hat : revisionAt rest with
    | none =>
      rw [hat] at hoperation hfiles
      obtain ⟨binary, -, -, hpackages⟩ := packages_file rfl rfl hoperation
      rw [hpackages] at hfiles
      unfold Cursor.noFiles at hfiles
      exact absurd rfl (not_or.mp (of_decide_eq_false hfiles)).1
    | some at' =>
      obtain ⟨revision, rest'⟩ := at'
      obtain ⟨hrest, hcomponent⟩ := revisionAt_eq_some hat
      rw [hat] at hoperation hparts
      obtain ⟨binary, hbinary, hrest', hpackages⟩ := packages_file rfl rfl hoperation
      dsimp only at hrest' hpackages hparts ⊢
      rw [hparts] at hrest'
      refine ⟨⟨name, version, user, channel, revision, binary, parts⟩,
        ⟨?_, hbinary, hcomponents, hne⟩, ?_, ?_⟩
      · intro part hpart
        rcases List.mem_append.mp (show part ∈ [name, version, user, channel] ++ [revision] from
          hpart) with hpart | hpart
        · exact hnames part hpart
        · rwa [List.mem_singleton.mp hpart]
      · rw [hsplit, hrest, hrest', hroute.1, hroute.2]
        rfl
      · rw [hpackages, hjoin, hroute.1, hroute.2]
        rfl
  · cases h

theorem FileRoute.owner_ne_nil (r : FileRoute) : r.owner ≠ [] := by
  unfold FileRoute.owner
  exact nofun

theorem FileRoute.Ok.parts {r : FileRoute} (h : r.Ok) :
    ∀ part ∈ r.parts.drop 2, component part = true := by
  intro part hpart
  have hwords : ∀ word ∈ [packagesWord, revisionsWord, filesWord], component word = true := by
    decide +kernel
  have hbinary : ∀ word ∈ binaryParts r.binary, component word = true := by
    intro word hword
    cases hsome : r.binary with
    | none =>
      rw [hsome] at hword
      cases hword
    | some binary =>
      obtain ⟨hpackage, hrevision⟩ := h.binary _ _ hsome
      rw [hsome] at hword
      simp only [binaryParts, List.mem_cons, List.not_mem_nil, or_false] at hword
      rcases hword with rfl | rfl | rfl | rfl
      · exact hwords _ (by simp)
      · exact hpackage
      · exact hwords _ (by simp)
      · exact hrevision
  have hnames := h.names
  unfold FileRoute.parts FileRoute.owner at hpart
  simp only [List.cons_append, List.nil_append, List.drop_succ_cons, List.drop_zero, List.mem_cons,
    List.mem_append] at hpart hnames
  rcases hpart with rfl | rfl | rfl | rfl | rfl | rfl | hpart | rfl | hpart
  · exact hnames _ (by simp)
  · exact hnames _ (by simp)
  · exact hnames _ (by simp)
  · exact hnames _ (by simp)
  · exact hwords _ (by simp)
  · exact hnames _ (by simp)
  · exact hbinary part hpart
  · exact hwords _ (by simp)
  · exact h.file part hpart

theorem FileRoute.Ok.joined {r : FileRoute} (h : r.Ok) :
    joinParts r.parts = r.path.pathPrefix ++ ascii "/files/".toList ++ r.path.file := by
  have hfiles : ascii "/files/".toList = slash :: filesWord ++ [slash] := by decide +kernel
  have hrest : [slash].intercalate ([filesWord] ++ r.file) = _ :=
    Nested.labels_append (List.cons_ne_nil _ _) h.file_ne
  unfold joinParts FileRoute.parts FileRoute.path
  rw [Nested.labels_append r.owner_ne_nil (List.cons_ne_nil _ _), hfiles]
  dsimp only
  rw [show filesWord :: r.file = [filesWord] ++ r.file from rfl, hrest,
    List.intercalate_singleton]
  simp [joinParts]

theorem identityName_inj {name user channel name' user' channel' : Bytes}
    (hname : commercialAt ∉ name) (hname' : commercialAt ∉ name') (huser : slash ∉ user)
    (huser' : slash ∉ user')
    (h : identityName name user channel = identityName name' user' channel') :
    name = name' ∧ user = user' ∧ channel = channel' := by
  unfold identityName at h
  split_ifs at h with howner howner' howner'
  · rw [List.append_assoc, List.append_assoc] at h
    obtain ⟨hsame, hrest⟩ := Nested.first_inj hname hname' h
    exact ⟨hsame, Nested.first_inj huser huser' hrest⟩
  · exact absurd (h ▸ by simp) hname'
  · exact absurd (h ▸ by simp) hname
  · rw [not_or, not_not, not_not] at howner howner'
    exact ⟨h, howner.1.trans howner'.1.symm, howner.2.trans howner'.2.symm⟩

theorem FileRoute.Ok.plain_version {r : FileRoute} (h : r.Ok) :
    slash ∉ r.version ∧ commercialAt ∉ r.version ∧ hash ∉ r.version ∧ colon ∉ r.version :=
  plain_of_component (h.names _ (by simp))

theorem FileRoute.Ok.plain_revision {r : FileRoute} (h : r.Ok) :
    slash ∉ r.revision ∧ commercialAt ∉ r.revision ∧ hash ∉ r.revision ∧ colon ∉ r.revision :=
  plain_of_component (h.names _ (by simp))

theorem identityVersion_eq {r : FileRoute} (h : r.Ok) :
    ∃ s, identityVersion r.version r.path = r.version ++ hash :: s ∧
      ((r.binary = none ∧ s = r.revision) ∨ ∃ package revision,
        r.binary = some (package, revision) ∧
          s = r.revision ++ colon :: (package ++ hash :: revision)) := by
  unfold identityVersion
  cases hsome : r.binary with
  | none =>
    have hpackage : r.path.package = [] := by
      unfold FileRoute.path
      rw [hsome]
      rfl
    rw [hpackage, if_neg (not_not.mpr rfl)]
    exact ⟨_, rfl, Or.inl ⟨rfl, rfl⟩⟩
  | some binary =>
    obtain ⟨package, revision⟩ := binary
    have hpackage : r.path.package = package := by
      unfold FileRoute.path
      rw [hsome]
      rfl
    have hrevision : r.path.packageRevision = revision := by
      unfold FileRoute.path
      rw [hsome]
      rfl
    rw [hpackage, hrevision, if_pos (component_ne_nil (h.binary _ _ hsome).1)]
    refine ⟨r.revision ++ colon :: (package ++ hash :: revision), ?_,
      Or.inr ⟨package, revision, rfl, rfl⟩⟩
    simp [FileRoute.path]

theorem identityVersion_inj {r r' : FileRoute} (hr : r.Ok) (hr' : r'.Ok)
    (h : identityVersion r.version r.path = identityVersion r'.version r'.path) :
    r.version = r'.version ∧ r.revision = r'.revision ∧ r.binary = r'.binary := by
  obtain ⟨s, hs, hrest⟩ := identityVersion_eq hr
  obtain ⟨s', hs', hrest'⟩ := identityVersion_eq hr'
  rw [hs, hs'] at h
  obtain ⟨hversion, hpart⟩ := Nested.first_inj (hr.plain_version).2.2.1 (hr'.plain_version).2.2.1 h
  have hcolon := hr.plain_revision.2.2.2
  have hcolon' := hr'.plain_revision.2.2.2
  refine ⟨hversion, ?_⟩
  rcases hrest with ⟨hnone, rfl⟩ | ⟨package, revision, hsome, rfl⟩
  · rcases hrest' with ⟨hnone', rfl⟩ | ⟨package', revision', -, rfl⟩
    · exact ⟨hpart, hnone.trans hnone'.symm⟩
    · exact absurd (hpart ▸ by simp) hcolon
  · rcases hrest' with ⟨-, rfl⟩ | ⟨package', revision', hsome', rfl⟩
    · exact absurd (hpart ▸ by simp) hcolon'
    · obtain ⟨hsame, htail⟩ := Nested.first_inj hcolon hcolon' hpart
      have hpackage := (plain_of_component (hr.binary _ _ hsome).1).2.2.1
      have hpackage' := (plain_of_component (hr'.binary _ _ hsome').1).2.2.1
      obtain ⟨heq, hlast⟩ := Nested.first_inj hpackage hpackage' htail
      exact ⟨hsame, by rw [hsome, hsome', heq, hlast]⟩

theorem conanIdentity_eq {relative : Bytes} {r : FileRoute} (h : parse relative = some r.path)
    (hsplit : relative.splitOn slash = r.parts) :
    (conanIdentity relative).1 = identityName r.name r.user r.channel ∧
      (conanIdentity relative).2.1 = identityVersion r.version r.path := by
  unfold conanIdentity
  rw [h, hsplit]
  exact ⟨rfl, rfl⟩

/-- The identity of a file and its place below `files` tell the whole path. -/
theorem file_routes_unambiguous {relative : Bytes} {p : Path} (h : parse relative = some p)
    (hfile : p.operation = .file) :
    relative = p.pathPrefix ++ ascii "/files/".toList ++ p.file ∧
      (∀ part ∈ (relative.splitOn slash).drop 2, Word part) ∧
      ∀ relative' p', parse relative' = some p' → p'.operation = .file →
        (conanIdentity relative').1 = (conanIdentity relative).1 →
        (conanIdentity relative').2.1 = (conanIdentity relative).2.1 → p'.file = p.file →
        relative' = relative := by
  obtain ⟨r, hr, hsplit, rfl⟩ := exists_fileRoute h hfile
  have hjoin : relative = joinParts r.parts := by
    rw [← hsplit]
    exact (List.intercalate_splitOn slash).symm
  refine ⟨hjoin.trans hr.joined, fun part hpart => ?_, ?_⟩
  · rw [hsplit] at hpart
    exact word_of_component (hr.parts part hpart)
  · intro relative' p' h' hfile' hname hversion hsame
    obtain ⟨r', hr', hsplit', rfl⟩ := exists_fileRoute h' hfile'
    have hjoin' : relative' = joinParts r'.parts := by
      rw [← hsplit']
      exact (List.intercalate_splitOn slash).symm
    rw [(conanIdentity_eq h hsplit).1, (conanIdentity_eq h' hsplit').1] at hname
    rw [(conanIdentity_eq h hsplit).2, (conanIdentity_eq h' hsplit').2] at hversion
    have hplain : ∀ {r : FileRoute}, r.Ok → commercialAt ∉ r.name ∧ slash ∉ r.user := fun hr =>
      ⟨(plain_of_component (hr.names _ (by simp))).2.1, (plain_of_component (hr.names _ (by simp))).1⟩
    obtain ⟨hnames, husers, hchannels⟩ := identityName_inj (hplain hr').1 (hplain hr).1
      (hplain hr').2 (hplain hr).2 hname
    obtain ⟨hversions, hrevisions, hbinaries⟩ := identityVersion_inj hr' hr hversion
    have howner : r'.owner = r.owner := by
      unfold FileRoute.owner
      rw [hnames, hversions, husers, hchannels, hrevisions, hbinaries]
    rw [hjoin', hjoin, hr'.joined, hr.joined, hsame]
    unfold FileRoute.path
    rw [howner]

def conaninfoPath : Bytes :=
  ascii "v2/conans/zlib/1.3/_/_/revisions/r/packages/p/revisions/q/files/conaninfo.txt".toList

theorem conaninfo_unambiguous : ∃ p, parse conaninfoPath = some p ∧
    conaninfoPath = p.pathPrefix ++ ascii "/files/".toList ++ p.file ∧
    (∀ part ∈ (conaninfoPath.splitOn slash).drop 2, Word part) ∧
    ∀ relative' p', parse relative' = some p' → p'.operation = .file →
      (conanIdentity relative').1 = (conanIdentity conaninfoPath).1 →
      (conanIdentity relative').2.1 = (conanIdentity conaninfoPath).2.1 → p'.file = p.file →
      relative' = conaninfoPath := by
  obtain ⟨p, hp⟩ : ∃ p, parse conaninfoPath = some p :=
    Option.isSome_iff_exists.mp (by decide +kernel)
  have hfile : (parse conaninfoPath).map Path.operation = some .file := by decide +kernel
  rw [hp] at hfile
  exact ⟨p, hp, file_routes_unambiguous hp (Option.some.inj hfile)⟩

end RenoP.Native.Conan
