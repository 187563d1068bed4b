import Mathlib.Data.List.TakeWhile
import RenoP.Lib.TrimSpace
import RenoP.Paths.SanitizePath

/-!
# Packages of registry paths

The names that `internal/service/npm/validation.go` and the mirror rules of
`internal/config/mirror.go` read off the bytes of a request path. The letters beyond ASCII and
`golang.org/x/mod/semver` come from outside.
-/

namespace RenoP.Npm.PackagePath

open RenoP.Paths (Bytes ascii slash percent pathUnescape)
open TrimSpace (trimSpace)

/-- What `unicode.ToLower` does beyond ASCII: only letters become ASCII, white space stays. -/
structure UnicodeCase where
  table : Char → Char
  letters : ∀ c, 0x80 ≤ c.toNat → (table c).toNat < 0x80 → 'a' ≤ table c ∧ table c ≤ 'z'
  space : ∀ c, String.utf8EncodeChar c ∈ TrimSpace.spaces → table c = c

def versionByte (c : UInt8) : Bool :=
  (0x30 ≤ c && c ≤ 0x39) || (0x41 ≤ c && c ≤ 0x5A) || (0x61 ≤ c && c ≤ 0x7A) ||
    c == 0x2D || c == 0x2B || c == 0x2E

structure Semver where
  isValid : Bytes → Bool
  bytes : ∀ s, isValid s = true → ∀ c ∈ s, versionByte c = true

def dash : UInt8 := 0x2D
def commercialAt : UInt8 := 0x40

def trimSlashes (s : Bytes) : Bytes :=
  ((s.dropWhile (· == slash)).reverse.dropWhile (· == slash)).reverse

section

variable (u : UnicodeCase)

def toLower (s : Bytes) : Bytes := UTF8.mapRunes (UTF8.unicodeToLower u.table) s

def maxPackageNameLength : ℕ := 214
def maxVersionLength : ℕ := 128

def lowerAlnum (c : UInt8) : Bool := (0x61 ≤ c && c ≤ 0x7A) || (0x30 ≤ c && c ≤ 0x39)

/-- Letters, digits and `-`, `_`, `.`, `~`. -/
def segmentByte (c : UInt8) : Bool :=
  lowerAlnum c || c == 0x2D || c == 0x5F || c == 0x2E || c == 0x7E

def validNPMSegment : Bytes → Bool
  | [] => false
  | c :: s => lowerAlnum c && s.all segmentByte

def nodeModules : Bytes := ascii "node_modules".toList
def favicon : Bytes := ascii "favicon.ico".toList

/-- The checks of `NormalizePackageName` on the name in lower case. -/
def validName (value : Bytes) : Bool :=
  if value = [] ∨ maxPackageNameLength < value.length ∨ value = nodeModules ∨ value = favicon then
    false
  else if value.head? = some commercialAt then
    match value.splitOn slash with
    | [scope, name] =>
      decide (2 ≤ scope.length) && validNPMSegment (scope.drop 1) && validNPMSegment name
    | _ => false
  else !value.contains slash && validNPMSegment value

def normalizePackageName (value : Bytes) : Option Bytes :=
  let value := toLower u (trimSpace value)
  if validName value then some value else none

def decodeRegistryPath (value : Bytes) : Option Bytes :=
  match pathUnescape (trimSlashes value) with
  | none => none
  | some decoded => if decoded.contains 0 then none else some (trimSlashes decoded)

def packageFromMetadataPath (value : Bytes) : Option Bytes :=
  match decodeRegistryPath value with
  | none => none
  | some decoded => normalizePackageName u decoded

/-- The text that `packageFromTarballPath` takes for the name of the package. -/
def tarballPackage (decoded : Bytes) : Option Bytes :=
  match decoded.splitOn slash with
  | [name, separator, _] => if separator = [dash] then some name else none
  | [scope, name, separator, _] =>
    if scope.head? = some commercialAt ∧ separator = [dash] then some (scope ++ slash :: name)
    else none
  | _ => none

def packageFromTarballPath (value : Bytes) : Option Bytes :=
  match decodeRegistryPath value with
  | none => none
  | some decoded =>
    match tarballPackage decoded with
    | none => none
    | some name => normalizePackageName u name

/-- `path.Join`. It looks at slashes and dots only, so that a byte stands for itself. -/
def pathJoin (elem : List Bytes) : Bytes :=
  let elem := elem.filter (· ≠ [])
  if elem = [] then []
  else (SlashPath.clean (([slash].intercalate elem).map fun b => Char.ofNat b.toNat)).map fun c =>
    UInt8.ofNat c.toNat

def afterSlash (s : Bytes) : Bytes := (s.reverse.takeWhile (· != slash)).reverse

def pathBase (path : Bytes) : Bytes :=
  if path = [] then [Paths.dot]
  else
    let path := (path.reverse.dropWhile (· == slash)).reverse
    if afterSlash path = [] then [slash] else afterSlash path

def tgz : Bytes := ascii ".tgz".toList

def canonicalTarballPath (packageName version : Bytes) : Bytes :=
  pathJoin [packageName, [dash], afterSlash packageName ++ dash :: version ++ tgz]

def validNPMVersion (semver : Semver) (value : Bytes) : Bool :=
  let value := trimSpace value
  decide (value ≠ []) && decide (value.length ≤ maxVersionLength) &&
    semver.isValid (0x76 :: value)

def classifyTarballPath (semver : Semver) (value : Bytes) : Option (Bytes × Bytes) :=
  match packageFromTarballPath u value with
  | none => none
  | some packageName =>
    let filename := pathBase ((decodeRegistryPath value).getD [])
    let before := afterSlash packageName ++ [dash]
    if !before.isPrefixOf filename || !tgz.isSuffixOf filename then none
    else
      -- `TrimSuffix` leaves a text that does not end so
      let rest := filename.drop before.length
      let version := if tgz.isSuffixOf rest then rest.take (rest.length - tgz.length) else rest
      if validNPMVersion semver version then some (packageName, version) else none

def cutBefore (sep : Bytes) : Bytes → Bytes
  | [] => []
  | c :: s => if sep.isPrefixOf (c :: s) then [] else c :: cutBefore sep s

def packageRoute : Bytes := ascii "-/package/".toList
def distTags : Bytes := ascii "/dist-tags".toList

/-- The package that the parts of a path begin with, empty for none. -/
def packageOfParts : List Bytes → Bytes
  | [] => []
  | first :: rest =>
    if first = [] ∨ first.head? = some dash then []
    else if first.head? = some commercialAt then
      match rest with
      | [] => []
      | name :: _ => if name = [] then [] else toLower u (first ++ slash :: name)
    else toLower u first

def npmPackageFromPath (path : Bytes) : Bytes :=
  match pathUnescape (trimSlashes path) with
  | none => []
  | some decoded =>
    let decoded :=
      if packageRoute.isPrefixOf decoded then
        cutBefore distTags (decoded.drop packageRoute.length)
      else decoded
    packageOfParts u ((trimSlashes decoded).splitOn slash)

def star : Bytes := ascii "/*".toList

/-- The function `match` of the npm rules. -/
def matchPackage (packageName pattern : Bytes) : Bool :=
  let pattern := toLower u (trimSpace pattern)
  let pattern := (pathUnescape pattern).getD pattern
  if star.isSuffixOf pattern then
    let scope := pattern.take (pattern.length - 2)
    let scope := if scope.getLast? = some slash then scope.dropLast else scope
    (scope ++ [slash]).isPrefixOf packageName
  else decide (pattern = packageName)

def isPackageAllowed (allowArtifacts denyArtifacts : List Bytes) (path : Bytes) : Bool × Bytes :=
  let hasAllow := !allowArtifacts.isEmpty
  let hasDeny := !denyArtifacts.isEmpty
  if !hasAllow && !hasDeny then (true, [])
  else if hasAllow && hasDeny then
    (false, ascii "Both allow and deny rules enabled on mirror".toList)
  else
    let clean := trimSlashes path
    let packageName := npmPackageFromPath u clean
    if packageName = [] then (true, [])
    else if hasAllow then
      if allowArtifacts.any (matchPackage u packageName) then (true, [])
      else
        (false, ascii "npm package blocked: Not in mirror allow list (".toList ++ clean ++
          ascii [')'])
    else if denyArtifacts.any (matchPackage u packageName) then
      (false, ascii "npm package blocked: In mirror deny list (".toList ++ clean ++ ascii [')'])
    else (true, [])

end

section

variable (u : UnicodeCase)

def letter (c : UInt8) : Prop := 0x61 ≤ c ∧ c ≤ 0x7A

instance : DecidablePred letter := fun c => inferInstanceAs (Decidable (0x61 ≤ c ∧ c ≤ 0x7A))

theorem encode_ascii {b : UInt8} (hb : b.toNat < 0x80) :
    String.utf8EncodeChar (UTF8.unicodeToLower u.table (Char.ofNat b.toNat)) =
      [Paths.toLower b] := by
  have hall : ∀ n < 128, Char.ofNat n ≤ '\x7f' ∧
      String.utf8EncodeChar (Char.ofNat n).toLower = [Paths.toLower (UInt8.ofNat n)] := by
    decide +kernel
  obtain ⟨hle, hencode⟩ := hall b.toNat hb
  rw [UTF8.unicodeToLower, if_pos hle, hencode, UInt8.ofNat_toNat]

theorem toLower_cons {b : UInt8} (hb : b.toNat < 0x80) (s : Bytes) :
    toLower u (b :: s) = Paths.toLower b :: toLower u s := by
  unfold toLower
  rw [UTF8.mapRunes_ascii _ hb, encode_ascii u hb]
  rfl

theorem toLower_append {b : UInt8} (hb : UTF8.Starts b) (s r : Bytes) :
    toLower u (s ++ b :: r) = toLower u s ++ toLower u (b :: r) :=
  UTF8.mapRunes_append _ hb s r

theorem toLower_slash (s r : Bytes) :
    toLower u (s ++ slash :: r) = toLower u s ++ slash :: toLower u r := by
  rw [toLower_append u (.inl (by decide)), toLower_cons u (by decide)]
  rfl

theorem encode_ne (c : Char) : String.utf8EncodeChar c ≠ [] := by
  have hlength := String.length_utf8EncodeChar c
  have hpos := c.utf8Size_pos
  intro hnil
  rw [hnil, List.length_nil] at hlength
  omega

theorem encode_beyond {c : Char} (hc : 0x80 ≤ c.toNat) :
    ∀ x ∈ String.utf8EncodeChar c, 0x80 ≤ x.toNat := by
  have hascii : ¬c.val.toNat ≤ 0x7f := by
    rw [Char.toNat] at hc
    omega
  intro x hx
  unfold String.utf8EncodeChar at hx
  simp only [if_neg hascii] at hx
  split_ifs at hx
  all_goals
    simp only [List.mem_cons, List.not_mem_nil, or_false] at hx
    rcases hx with rfl | rfl | rfl | rfl
    all_goals
      rw [UInt8.toNat_ofNat']
      omega

theorem lowered_beyond {c : Char} (hc : 0x80 ≤ c.toNat) :
    ∀ x ∈ String.utf8EncodeChar (UTF8.unicodeToLower u.table c), 0x80 ≤ x.toNat ∨ letter x := by
  have hgreat : ¬c ≤ '\x7f' := fun hle => by
    have hle' : c.toNat ≤ 0x7f := hle
    omega
  rw [UTF8.unicodeToLower, if_neg hgreat]
  intro x hx
  by_cases hascii : (u.table c).toNat < 0x80
  · obtain ⟨hlow, hhigh⟩ := u.letters c hc hascii
    have hlow' : 0x61 ≤ (u.table c).toNat := hlow
    have hhigh' : (u.table c).toNat ≤ 0x7A := hhigh
    have hsmall : (u.table c).val.toNat ≤ 0x7f := Nat.le_of_lt_succ hascii
    rw [String.utf8EncodeChar] at hx
    simp only [if_pos hsmall, List.mem_singleton] at hx
    right
    rw [hx, letter, UInt8.le_iff_toNat_le, UInt8.le_iff_toNat_le, UInt8.toNat_ofNat']
    have hval : (u.table c).val.toNat = (u.table c).toNat := rfl
    have hsize : (u.table c).toNat % 2 ^ 8 = (u.table c).toNat := Nat.mod_eq_of_lt (by omega)
    rw [hval, hsize]
    exact ⟨hlow', hhigh'⟩
  · exact .inl (encode_beyond (Nat.le_of_not_lt hascii) x hx)

theorem toLower_beyond {b : UInt8} (hb : ¬b.toNat < 0x80) (s : Bytes) :
    ∃ a r, toLower u (b :: s) = a ++ toLower u r ∧ a ≠ [] ∧
      (∀ x ∈ a, 0x80 ≤ x.toNat ∨ letter x) ∧ r <:+ s := by
  obtain ⟨hpos, -⟩ := UTF8.decodeRune_width b s
  refine ⟨_, _, UTF8.mapRunes_cons _ b s, encode_ne _, ?_, ?_⟩
  · cases hrune : (UTF8.decodeRune b s).1 with
    | none => exact lowered_beyond u (by decide)
    | some c => exact lowered_beyond u (UTF8.decodeRune_beyond hb hrune)
  · obtain ⟨n, hn⟩ : ∃ n, (UTF8.decodeRune b s).2 = n + 1 :=
      ⟨(UTF8.decodeRune b s).2 - 1, by omega⟩
    rw [hn, List.drop_succ_cons]
    exact List.drop_suffix n s

theorem toLower_ascii_byte {b : UInt8} (hb : b.toNat < 0x80) :
    Paths.toLower b = b ∨ letter (Paths.toLower b) := by
  have hall : ∀ n < 128, Paths.toLower (UInt8.ofNat n) = UInt8.ofNat n ∨
      (0x61 ≤ Paths.toLower (UInt8.ofNat n) ∧ Paths.toLower (UInt8.ofNat n) ≤ 0x7A) := by
    decide +kernel
  have hbyte := hall b.toNat hb
  rwa [UInt8.ofNat_toNat] at hbyte

theorem mem_toLower {x : UInt8} (hx : x.toNat < 0x80) (hletter : ¬letter x) {s : Bytes}
    (h : x ∈ toLower u s) : x ∈ s := by
  induction hn : s.length using Nat.strongRecOn generalizing s with
  | ind n ih =>
    cases s with
    | nil => cases h
    | cons b s =>
      by_cases hb : b.toNat < 0x80
      · rw [toLower_cons u hb] at h
        rcases List.mem_cons.mp h with heq | hmem
        · rcases toLower_ascii_byte hb with hsame | hlower
          · exact List.mem_cons.mpr (.inl (heq.trans hsame))
          · exact absurd (heq ▸ hlower) hletter
        · exact List.mem_cons_of_mem b (ih s.length (by rw [← hn]; simp) hmem rfl)
      · obtain ⟨a, r, hsplit, -, ha, hr⟩ := toLower_beyond u hb s
        rw [hsplit] at h
        rcases List.mem_append.mp h with hmem | hmem
        · rcases ha x hmem with hbeyond | hlower
          · omega
          · exact absurd hlower hletter
        · have hrest := ih r.length (by
            have hle := hr.length_le
            rw [← hn, List.length_cons]
            omega) hmem rfl
          exact List.mem_cons_of_mem b (hr.subset hrest)

theorem head_toLower {x : UInt8} (hx : x.toNat < 0x80) (hletter : ¬letter x) {s : Bytes}
    (h : (toLower u s).head? = some x) : s.head? = some x := by
  cases s with
  | nil => cases h
  | cons b s =>
    by_cases hb : b.toNat < 0x80
    · rw [toLower_cons u hb] at h
      have heq := Option.some.inj h
      rcases toLower_ascii_byte hb with hsame | hlower
      · rw [← heq, hsame]
        rfl
      · exact absurd (heq ▸ hlower) hletter
    · obtain ⟨a, r, hsplit, hne, ha, -⟩ := toLower_beyond u hb s
      obtain ⟨y, a, rfl⟩ := List.exists_cons_of_ne_nil hne
      rw [hsplit] at h
      have heq : y = x := Option.some.inj h
      rcases ha y (List.mem_cons_self ..) with hbeyond | hlower
      · rw [heq] at hbeyond
        omega
      · exact absurd (heq ▸ hlower) hletter

theorem slash_toLower {s : Bytes} (h : slash ∉ s) : slash ∉ toLower u s :=
  fun hmem => h (mem_toLower u (by decide) (by decide) hmem)

theorem toLower_splitOn (s : Bytes) :
    (toLower u s).splitOn slash = (s.splitOn slash).map (toLower u) := by
  induction hn : s.length using Nat.strongRecOn generalizing s with
  | ind n ih =>
    by_cases hslash : slash ∈ s
    · obtain ⟨a, r, rfl, ha⟩ := List.eq_append_cons_of_mem hslash
      have hrest := ih r.length (by rw [← hn]; simp; omega) r rfl
      rw [toLower_slash, List.splitOn_append_cons_self_of_not_mem (slash_toLower u ha),
        List.splitOn_append_cons_self_of_not_mem ha, hrest]
      rfl
    · rw [List.splitOn_eq_singleton hslash, List.splitOn_eq_singleton (slash_toLower u hslash)]
      rfl

theorem toLower_fixed {s : Bytes} (h : ∀ c ∈ s, c.toNat < 0x80 ∧ Paths.toLower c = c) :
    toLower u s = s := by
  induction s with
  | nil => rfl
  | cons c s ih =>
    obtain ⟨hc, hsame⟩ := h c (List.mem_cons_self ..)
    rw [toLower_cons u hc, hsame, ih fun d hd => h d (List.mem_cons_of_mem c hd)]

theorem space_rune : ∀ code ∈ TrimSpace.spaces, ∃ b s, code = b :: s ∧ UTF8.Starts b ∧
    ∃ c, String.utf8EncodeChar c = code ∧ UTF8.decodeRune b s = (some c, s.length + 1) ∧
      (c ≤ '\x7f' → c.toLower = c) := by
  have hall : ∀ code ∈ TrimSpace.spaces, code ≠ [] ∧
      ((code.headD 0).toNat < 0x80 ∨ 0xC0 ≤ (code.headD 0).toNat) ∧
      (UTF8.decodeRune (code.headD 0) code.tail).2 = code.length ∧
      ((UTF8.decodeRune (code.headD 0) code.tail).1.any fun c =>
        decide (String.utf8EncodeChar c = code) && decide (c ≤ '\x7f' → c.toLower = c)) = true := by
    decide +kernel
  intro code hcode
  obtain ⟨hne, hstarts, hwidth, hany⟩ := hall code hcode
  obtain ⟨b, s, rfl⟩ := List.exists_cons_of_ne_nil hne
  simp only [List.headD_cons, List.tail_cons] at hstarts hwidth hany
  cases hc : (UTF8.decodeRune b s).1 with
  | none =>
    rw [hc] at hany
    cases hany
  | some c =>
    rw [hc, Option.any_some, Bool.and_eq_true, decide_eq_true_eq, decide_eq_true_eq] at hany
    exact ⟨b, s, rfl, hstarts, c, hany.1, Prod.ext hc hwidth, hany.2⟩

theorem toLower_space {code : Bytes} (h : code ∈ TrimSpace.spaces) (r : Bytes) :
    toLower u (code ++ r) = code ++ toLower u r := by
  obtain ⟨b, s, rfl, -, c, hencode, hrune, hlower⟩ := space_rune code h
  have hkept : UTF8.unicodeToLower u.table c = c := by
    unfold UTF8.unicodeToLower
    split_ifs with hascii
    · exact hlower hascii
    · exact u.space c (hencode ▸ h)
  have hdrop : (b :: (s ++ r)).drop (s.length + 1) = r := @List.drop_left _ (b :: s) r
  unfold toLower
  rw [List.cons_append, UTF8.mapRunes_cons, UTF8.decodeRune_complete hrune, hdrop,
    Option.getD_some, hkept, hencode]

theorem toLower_space_end {code : Bytes} (h : code ∈ TrimSpace.spaces) (s : Bytes) :
    toLower u (s ++ code) = toLower u s ++ code := by
  obtain ⟨b, r, rfl, hb, -⟩ := space_rune code h
  have hcode := toLower_space u h []
  rw [List.append_nil] at hcode
  rw [toLower_append u hb, hcode]
  exact congrArg _ (List.append_nil _)

structure NameByte (c : UInt8) : Prop where
  visible : TrimSpace.visible c = true
  ascii : c.toNat < 0x80
  lower : Paths.toLower c = c
  percent : c ≠ percent
  zero : c ≠ 0
  star : c ≠ 0x2A

theorem segmentByte_spec {c : UInt8} (h : segmentByte c = true) :
    NameByte c ∧ c ≠ slash ∧ c ≠ commercialAt := by
  have hall : ∀ n < 256, segmentByte (UInt8.ofNat n) = true →
      (TrimSpace.visible (UInt8.ofNat n) = true ∧ (UInt8.ofNat n).toNat < 0x80 ∧
        Paths.toLower (UInt8.ofNat n) = UInt8.ofNat n ∧ UInt8.ofNat n ≠ percent ∧
        UInt8.ofNat n ≠ 0 ∧ UInt8.ofNat n ≠ 0x2A) ∧
      UInt8.ofNat n ≠ slash ∧ UInt8.ofNat n ≠ commercialAt := by
    decide +kernel
  have hbyte := hall c.toNat c.toNat_lt
  rw [UInt8.ofNat_toNat] at hbyte
  obtain ⟨⟨hvisible, hascii, hlower, hpercent, hzero, hstar⟩, hrest⟩ := hbyte h
  exact ⟨⟨hvisible, hascii, hlower, hpercent, hzero, hstar⟩, hrest⟩

theorem validNPMSegment_spec {s : Bytes} (h : validNPMSegment s = true) :
    (∃ c r, s = c :: r ∧ lowerAlnum c = true) ∧ ∀ c ∈ s, segmentByte c = true := by
  cases s with
  | nil => cases h
  | cons c r =>
    rw [validNPMSegment, Bool.and_eq_true, List.all_eq_true] at h
    have hsegment : segmentByte c = true := by simp [segmentByte, h.1]
    refine ⟨⟨c, r, rfl, h.1⟩, fun d hd => ?_⟩
    rcases List.mem_cons.mp hd with rfl | hd
    · exact hsegment
    · exact h.2 d hd

/-- `name`, or `@scope/name` -/
inductive Name : Bytes → Prop
  | plain {p} (h : validNPMSegment p = true) : Name p
  | inScope {scope name} (hscope : validNPMSegment scope = true)
      (hname : validNPMSegment name = true) :
      Name (commercialAt :: scope ++ slash :: name)

theorem segment_slash {s : Bytes} (h : validNPMSegment s = true) : slash ∉ s := fun hmem =>
  (segmentByte_spec ((validNPMSegment_spec h).2 _ hmem)).2.1 rfl

theorem validName_name {p : Bytes} (h : validName p = true) : Name p := by
  unfold validName at h
  split_ifs at h with hbad hscoped
  · have hjoin := @List.intercalate_splitOn _ p _ _ slash
    split at h
    next scope name hsplit =>
      rw [hsplit] at hjoin
      simp only [Bool.and_eq_true, decide_eq_true_eq] at h
      obtain ⟨⟨hlength, hscope⟩, hname⟩ := h
      rw [List.intercalate_cons_cons, List.intercalate_singleton, List.append_assoc,
        List.singleton_append] at hjoin
      cases scope with
      | nil => simp at hlength
      | cons c scope =>
        rw [← hjoin] at hscoped ⊢
        cases Option.some.inj hscoped
        exact .inScope hscope hname
    next => cases h
  · rw [Bool.and_eq_true] at h
    exact .plain h.2

theorem Name.bytes {p : Bytes} (h : Name p) : ∀ c ∈ p, NameByte c := by
  have hsegment {s : Bytes} (hs : validNPMSegment s = true) : ∀ c ∈ s, NameByte c :=
    fun c hc => (segmentByte_spec ((validNPMSegment_spec hs).2 c hc)).1
  intro c hc
  cases h with
  | plain hs => exact hsegment hs c hc
  | inScope hscope hname =>
    rcases List.mem_append.mp hc with hc | hc
    · rcases List.mem_cons.mp hc with rfl | hc
      · exact ⟨by decide, by decide, by decide, by decide, by decide, by decide⟩
      · exact hsegment hscope c hc
    · rcases List.mem_cons.mp hc with rfl | hc
      · exact ⟨by decide, by decide, by decide, by decide, by decide, by decide⟩
      · exact hsegment hname c hc

theorem Name.trimSpace {p : Bytes} (h : Name p) : trimSpace p = p :=
  TrimSpace.trimSpace_visible fun c hc => (h.bytes c hc).visible

theorem Name.toLower {p : Bytes} (h : Name p) : toLower u p = p :=
  toLower_fixed u fun c hc => ⟨(h.bytes c hc).ascii, (h.bytes c hc).lower⟩

theorem normalizePackageName_some {t p : Bytes} (h : normalizePackageName u t = some p) :
    p = PackagePath.toLower u (TrimSpace.trimSpace t) ∧ validName p = true := by
  simp only [normalizePackageName] at h
  split_ifs at h with hvalid
  cases h
  exact ⟨rfl, hvalid⟩

theorem normalizePackageName_idem {t p : Bytes} (h : normalizePackageName u t = some p) :
    normalizePackageName u p = some p := by
  obtain ⟨-, hvalid⟩ := normalizePackageName_some u h
  have hname := validName_name hvalid
  simp only [normalizePackageName, hname.trimSpace, hname.toLower u, hvalid, if_true]

theorem toLower_eq_iff {t p : Bytes} (h : normalizePackageName u t = some p) :
    toLower u t = p ↔ trimSpace t = t := by
  obtain ⟨hp, hvalid⟩ := normalizePackageName_some u h
  refine ⟨fun hlower => ?_, fun htrim => by rw [hp, htrim]⟩
  by_contra htrim
  have hspace : ∀ code ∈ TrimSpace.spaces, ∀ c ∈ code, c ∉ p := by
    intro code hcode c hc hmem
    have hvisible := ((validName_name hvalid).bytes c hmem).visible
    exact (TrimSpace.spaces_visible hvisible).1 code hcode hc
  rcases TrimSpace.trimSpace_ne htrim with ⟨code, hcode, r, rfl⟩ | ⟨code, hcode, r, rfl⟩
  · obtain ⟨b, s, rfl, -⟩ := space_rune code hcode
    rw [toLower_space u hcode] at hlower
    exact hspace _ hcode b (List.mem_cons_self ..) (by rw [← hlower]; simp)
  · obtain ⟨b, s, rfl, -⟩ := space_rune code hcode
    rw [toLower_space_end u hcode] at hlower
    exact hspace _ hcode b (List.mem_cons_self ..) (by rw [← hlower]; simp)

theorem normalized_parts {t p : Bytes} (h : normalizePackageName u t = some p) :
    (validNPMSegment p = true ∧ t.splitOn slash = [t]) ∨
    ∃ scope name x y, validNPMSegment scope = true ∧ validNPMSegment name = true ∧
      p = commercialAt :: scope ++ slash :: name ∧ t.splitOn slash = [x, y] := by
  obtain ⟨hp, hvalid⟩ := normalizePackageName_some u h
  obtain ⟨a, b, ht, ha, hb⟩ := TrimSpace.trimSpace_split t
  have hspace : ∀ c, (∃ code ∈ TrimSpace.spaces, c ∈ code) → c ≠ slash := by
    rintro c ⟨code, hcode, hc⟩ rfl
    exact (TrimSpace.spaces_visible (by decide)).1 code hcode hc
  have hsplit := toLower_splitOn u (trimSpace t)
  rw [← hp] at hsplit
  cases validName_name hvalid with
  | plain hs =>
    refine .inl ⟨hs, List.splitOn_eq_singleton fun hmem => ?_⟩
    rw [List.splitOn_eq_singleton (segment_slash hs)] at hsplit
    have hlength := congrArg List.length hsplit
    rw [List.length_map] at hlength
    rw [ht] at hmem
    rcases List.mem_append.mp hmem with hmem | hmem
    · rcases List.mem_append.mp hmem with hmem | hmem
      · exact hspace slash (ha slash hmem) rfl
      · obtain ⟨x, y, hxy, hx⟩ := List.eq_append_cons_of_mem hmem
        rw [hxy, List.splitOn_append_cons_self_of_not_mem hx] at hlength
        exact List.splitOn_ne_nil slash y (List.length_eq_zero_iff.mp (Nat.succ.inj hlength).symm)
    · exact hspace slash (hb slash hmem) rfl
  | @inScope scope name hscope hname =>
    have hscopeSlash : slash ∉ commercialAt :: scope := by
      rw [List.mem_cons, not_or]
      exact ⟨by decide, segment_slash hscope⟩
    rw [List.splitOn_append_cons_self_of_not_mem hscopeSlash,
      List.splitOn_eq_singleton (segment_slash hname)] at hsplit
    have hjoin := @List.intercalate_splitOn _ (trimSpace t) _ _ slash
    have hnoSep := SlashPath.splitOn_noSep slash (trimSpace t)
    obtain ⟨x, rest, hparts, -, hrest⟩ := List.map_eq_cons_iff.mp hsplit.symm
    obtain ⟨y, rest, rfl, -, hnil⟩ := List.map_eq_cons_iff.mp hrest
    rw [List.map_eq_nil_iff.mp hnil] at hparts
    rw [hparts] at hjoin hnoSep
    rw [List.intercalate_cons_cons, List.intercalate_singleton, List.append_assoc,
      List.singleton_append] at hjoin
    have hx : slash ∉ a ++ x := by
      rw [List.mem_append, not_or]
      exact ⟨fun hmem => hspace slash (ha slash hmem) rfl, hnoSep x (by simp)⟩
    have hy : slash ∉ y ++ b := by
      rw [List.mem_append, not_or]
      exact ⟨hnoSep y (by simp), fun hmem => hspace slash (hb slash hmem) rfl⟩
    have ht' : t = (a ++ x) ++ slash :: (y ++ b) := by
      rw [ht, ← hjoin]
      simp
    refine .inr ⟨scope, name, a ++ x, y ++ b, hscope, hname, rfl, ?_⟩
    rw [ht', List.splitOn_append_cons_self_of_not_mem hx, List.splitOn_eq_singleton hy]

theorem Name.head {p : Bytes} (h : Name p) : p ≠ [] ∧ p.head? ≠ some dash := by
  cases h with
  | plain hs =>
    obtain ⟨⟨c, r, rfl, hc⟩, -⟩ := validNPMSegment_spec hs
    refine ⟨List.cons_ne_nil _ _, fun he => ?_⟩
    rw [Option.some.inj he] at hc
    cases hc
  | inScope hscope hname => exact ⟨by simp, by simp [commercialAt, dash]⟩

theorem packageOfParts_cons (first : Bytes) (rest : List Bytes) :
    packageOfParts u (first :: rest) =
      if first = [] ∨ first.head? = some dash then []
      else if first.head? = some commercialAt then
        match rest with
        | [] => []
        | name :: _ => if name = [] then [] else PackagePath.toLower u (first ++ slash :: name)
      else PackagePath.toLower u first := rfl

theorem packageOfParts_iff {t p : Bytes} (h : normalizePackageName u t = some p)
    (more : List Bytes) :
    packageOfParts u (t.splitOn slash ++ more) = p ↔ trimSpace t = t := by
  rw [← toLower_eq_iff u h]
  have hname := validName_name (normalizePackageName_some u h).2
  obtain ⟨hne, hdash⟩ := hname.head
  have hhead (hlower : PackagePath.toLower u t = p) : t ≠ [] ∧ t.head? ≠ some dash := by
    constructor
    · rintro rfl
      exact hne hlower.symm
    · intro hd
      obtain ⟨r, rfl⟩ : ∃ r, t = dash :: r := by
        cases t with
        | nil => cases hd
        | cons c r => exact ⟨r, by rw [Option.some.inj hd]⟩
      rw [toLower_cons u (by decide)] at hlower
      exact hdash (by rw [← hlower]; rfl)
  have hjoin := @List.intercalate_splitOn _ t _ _ slash
  rcases normalized_parts u h with ⟨hs, hparts⟩ | ⟨scope, name, x, y, hscope, hsegment, hp, hparts⟩
  · rw [hparts, List.singleton_append, packageOfParts_cons]
    split_ifs with hbad hat
    · refine iff_of_false (fun he => hne he.symm) fun hlower => ?_
      rcases hbad with hbad | hbad
      · exact (hhead hlower).1 hbad
      · exact (hhead hlower).2 hbad
    · refine iff_of_false (fun he => ?_) fun hlower => ?_
      · cases more with
        | nil => exact hne he.symm
        | cons second more =>
          dsimp only at he
          split_ifs at he
          · exact hne he.symm
          · rw [toLower_slash] at he
            exact segment_slash hs (by rw [← he]; simp)
      · obtain ⟨r, rfl⟩ : ∃ r, t = commercialAt :: r := by
          cases t with
          | nil => cases hat
          | cons c r => exact ⟨r, by rw [Option.some.inj hat]⟩
        rw [toLower_cons u (by decide)] at hlower
        have hmem : commercialAt ∈ p := by
          rw [← hlower]
          exact List.mem_cons_self ..
        exact (segmentByte_spec ((validNPMSegment_spec hs).2 _ hmem)).2.2 rfl
    · rfl
  · have hsplit := toLower_splitOn u t
    rw [hparts] at hsplit hjoin ⊢
    rw [List.intercalate_cons_cons, List.intercalate_singleton, List.append_assoc,
      List.singleton_append] at hjoin
    have hx : slash ∉ x := SlashPath.splitOn_noSep slash t x (by rw [hparts]; simp)
    have hscopeSlash : slash ∉ commercialAt :: scope := by
      rw [List.mem_cons, not_or]
      exact ⟨by decide, segment_slash hscope⟩
    have hnameParts : p.splitOn slash = [commercialAt :: scope, name] := by
      rw [hp, List.splitOn_append_cons_self_of_not_mem hscopeSlash,
        List.splitOn_eq_singleton (segment_slash hsegment)]
    have hat (hlower : PackagePath.toLower u t = p) : x ≠ [] ∧ x.head? = some commercialAt := by
      rw [hlower, hnameParts] at hsplit
      have hfirst : commercialAt :: scope = PackagePath.toLower u x := (List.cons.inj hsplit).1
      have hxhead := head_toLower u (x := commercialAt) (by decide) (by decide) (s := x)
        (by rw [← hfirst]; rfl)
      exact ⟨fun he => absurd hxhead (by rw [he]; exact nofun), hxhead⟩
    rw [List.cons_append, packageOfParts_cons]
    dsimp only [List.cons_append]
    split_ifs with hbad hxat hy
    · refine iff_of_false (fun he => hne he.symm) fun hlower => ?_
      obtain ⟨hxne, hxhead⟩ := hat hlower
      rcases hbad with hbad | hbad
      · exact hxne hbad
      · exact absurd (Option.some.inj (hxhead.symm.trans hbad)) (by decide)
    · refine iff_of_false (fun he => hne he.symm) fun hlower => ?_
      rw [hlower, hnameParts, hy] at hsplit
      have hempty : name = [] := (List.cons.inj (List.cons.inj hsplit).2).1
      rw [hempty] at hsegment
      cases hsegment
    · rw [hjoin]
    · refine iff_of_false (fun he => ?_) fun hlower => hxat (hat hlower).2
      exact slash_toLower u hx (by rw [he, hp]; simp)

theorem trimSlashes_fixed {s : Bytes} (hhead : s.head? ≠ some slash)
    (hlast : s.getLast? ≠ some slash) : trimSlashes s = s := by
  have hkept : ∀ s : Bytes, s.head? ≠ some slash → s.dropWhile (· == slash) = s := by
    intro s hs
    cases s with
    | nil => rfl
    | cons c s =>
      rw [List.dropWhile_cons_of_neg]
      exact fun he => hs (congrArg some (beq_iff_eq.mp he))
  unfold trimSlashes
  rw [hkept s hhead, hkept s.reverse (by rwa [List.head?_reverse]), List.reverse_reverse]

theorem trimSlashes_split (s : Bytes) :
    ∃ r, s.dropWhile (· == slash) = trimSlashes s ++ r ∧ ∀ c ∈ r, c = slash := by
  have hjoin := List.takeWhile_append_dropWhile (p := (· == slash))
    (l := (s.dropWhile (· == slash)).reverse)
  refine ⟨((s.dropWhile (· == slash)).reverse.takeWhile (· == slash)).reverse, ?_, ?_⟩
  · rw [trimSlashes, ← List.reverse_append, hjoin, List.reverse_reverse]
  · intro c hc
    exact beq_iff_eq.mp (List.mem_takeWhile_imp (p := (· == slash)) (List.mem_reverse.mp hc))

theorem trimSlashes_ends (s : Bytes) :
    (trimSlashes s).head? ≠ some slash ∧ (trimSlashes s).getLast? ≠ some slash := by
  have hdrop : ∀ s : Bytes, (s.dropWhile (· == slash)).head? ≠ some slash := by
    intro s he
    have hnot := List.head?_dropWhile_not (· == slash) s
    rw [he] at hnot
    cases hnot
  obtain ⟨r, hr, -⟩ := trimSlashes_split s
  refine ⟨fun he => hdrop s ?_, ?_⟩
  · rw [hr, List.head?_append, he]
    rfl
  · rw [trimSlashes, List.getLast?_reverse]
    exact hdrop _

theorem trimSlashes_idem (s : Bytes) : trimSlashes (trimSlashes s) = trimSlashes s :=
  trimSlashes_fixed (trimSlashes_ends s).1 (trimSlashes_ends s).2

theorem trimSlashes_dash (s : Bytes) : (trimSlashes (dash :: s)).head? = some dash := by
  obtain ⟨r, hr, hslash⟩ := trimSlashes_split (dash :: s)
  rw [List.dropWhile_cons_of_neg (by decide)] at hr
  cases htrim : trimSlashes (dash :: s) with
  | nil =>
    rw [htrim, List.nil_append] at hr
    have hdash := hslash dash (by rw [← hr]; exact List.mem_cons_self ..)
    cases hdash
  | cons c t =>
    rw [htrim, List.cons_append] at hr
    rw [(List.cons.inj hr).1]
    rfl

theorem tarballPackage_spec {decoded t : Bytes} (h : tarballPackage decoded = some t) :
    (∃ r, decoded = t ++ r) ∧ ∃ more, decoded.splitOn slash = t.splitOn slash ++ more := by
  have hjoin := @List.intercalate_splitOn _ decoded _ _ slash
  have hnoSep := SlashPath.splitOn_noSep slash decoded
  unfold tarballPackage at h
  split at h
  next name separator file hsplit =>
    split_ifs at h
    cases h
    rw [hsplit] at hjoin hnoSep
    refine ⟨⟨slash :: separator ++ slash :: file, ?_⟩, [separator, file], ?_⟩
    · rw [← hjoin]
      simp [List.intercalate_cons_cons]
    · rw [hsplit, List.splitOn_eq_singleton (hnoSep t (by simp))]
      rfl
  next scope name separator file hsplit =>
    split_ifs at h
    cases h
    rw [hsplit] at hjoin hnoSep
    refine ⟨⟨slash :: separator ++ slash :: file, ?_⟩, [separator, file], ?_⟩
    · rw [← hjoin]
      simp [List.intercalate_cons_cons]
    · rw [hsplit, List.splitOn_append_cons_self_of_not_mem (hnoSep scope (by simp)),
        List.splitOn_eq_singleton (hnoSep name (by simp))]
      rfl
  next => cases h

theorem normalized_head {t p : Bytes} (h : normalizePackageName u t = some p) :
    t ≠ [] ∧ t.head? ≠ some dash := by
  obtain ⟨hp, hvalid⟩ := normalizePackageName_some u h
  obtain ⟨hne, hdash⟩ := (validName_name hvalid).head
  refine ⟨?_, fun he => ?_⟩
  · rintro rfl
    exact hne (hp.trans rfl)
  · obtain ⟨r, rfl⟩ : ∃ r, t = dash :: r := by
      cases t with
      | nil => cases he
      | cons c r => exact ⟨r, by rw [Option.some.inj he]⟩
    have htrim : TrimSpace.trimSpace (dash :: r) = dash :: TrimSpace.trimRight r := by
      have hleft := TrimSpace.trimLeft_append (c := dash) (by decide) [] r
      have hright := TrimSpace.trimRight_append (c := dash) (by decide) [] r
      rw [TrimSpace.trimSpace]
      exact (congrArg _ hleft).trans hright
    rw [htrim, toLower_cons u (by decide)] at hp
    exact hdash (by rw [hp]; rfl)

def NameText (value t : Bytes) : Prop :=
  ∃ decoded, decodeRegistryPath value = some decoded ∧
    (t = decoded ∨ tarballPackage decoded = some t)

theorem accepted_iff {value p : Bytes} :
    (packageFromMetadataPath u value = some p ∨ packageFromTarballPath u value = some p) ↔
      ∃ t, NameText value t ∧ normalizePackageName u t = some p := by
  unfold packageFromMetadataPath packageFromTarballPath NameText
  cases decodeRegistryPath value with
  | none => simp
  | some decoded =>
    cases htarball : tarballPackage decoded with
    | none => simp [htarball]
    | some name => simp [htarball, or_and_right, exists_or]

theorem npmPackageFromPath_nameText {value t p : Bytes} (ht : NameText value t)
    (h : normalizePackageName u t = some p) :
    ∃ more, npmPackageFromPath u value = packageOfParts u (t.splitOn slash ++ more) := by
  obtain ⟨decoded, hdecode, hname⟩ := ht
  obtain ⟨⟨r, hr⟩, more, hsplit⟩ :
      (∃ r, decoded = t ++ r) ∧ ∃ more, decoded.splitOn slash = t.splitOn slash ++ more := by
    rcases hname with rfl | hname
    · exact ⟨⟨[], (List.append_nil t).symm⟩, [], (List.append_nil _).symm⟩
    · exact tarballPackage_spec hname
  obtain ⟨hne, hdash⟩ := normalized_head u h
  refine ⟨more, ?_⟩
  unfold decodeRegistryPath at hdecode
  unfold npmPackageFromPath
  cases hunescape : pathUnescape (trimSlashes value) with
  | none => simp [hunescape] at hdecode
  | some raw =>
    rw [hunescape] at hdecode
    dsimp only at hdecode ⊢
    split_ifs at hdecode with hzero
    have htrim := Option.some.inj hdecode
    have hroute : packageRoute.isPrefixOf raw = false := by
      by_contra hroute
      obtain ⟨rest, hrest⟩ := List.isPrefixOf_iff_prefix.mp (Bool.eq_true_of_not_eq_false hroute)
      have hraw : raw = dash :: (packageRoute.tail ++ rest) := hrest.symm
      have hdecoded := trimSlashes_dash (packageRoute.tail ++ rest)
      rw [← hraw, htrim, hr, List.head?_append_of_ne_nil _ hne] at hdecoded
      exact hdash hdecoded
    simp only [hroute, Bool.false_eq_true, if_false, htrim, hsplit]

def NamesPackage (rules : List Bytes) (p : Bytes) : Prop :=
  ∃ rule ∈ rules, PackagePath.toLower u (TrimSpace.trimSpace rule) = p

/-- A package that the parsers of a path find is the one that the rules are asked about, so that a
rule that names it decides. -/
def MirrorAgrees (value : Bytes) : Prop :=
  ∀ p, packageFromMetadataPath u value = some p ∨ packageFromTarballPath u value = some p →
    npmPackageFromPath u value = p ∧ ∀ rules, NamesPackage u rules p →
      (isPackageAllowed u rules [] value).1 = true ∧
        (isPackageAllowed u [] rules value).1 = false

def Unpadded (value : Bytes) : Prop :=
  ∀ t, NameText value t → (normalizePackageName u t).isSome = true → trimSpace t = t

theorem matchPackage_name {p rule : Bytes} (hname : Name p)
    (h : PackagePath.toLower u (TrimSpace.trimSpace rule) = p) : matchPackage u p rule = true := by
  have hunescape : pathUnescape p = some p :=
    Paths.pathUnescape_eq fun hmem => (hname.bytes _ hmem).percent rfl
  have hstar : star.isSuffixOf p = false := by
    by_contra hstar
    have hsuffix := List.isSuffixOf_iff_suffix.mp (Bool.eq_true_of_not_eq_false hstar)
    exact (hname.bytes 0x2A (hsuffix.subset (by decide))).star rfl
  simp only [matchPackage, h, hunescape, Option.getD_some, hstar, Bool.false_eq_true, if_false,
    decide_true]

theorem rules_decide {value p : Bytes} (hname : Name p) (hread : npmPackageFromPath u value = p)
    {rules : List Bytes} (h : NamesPackage u rules p) :
    (isPackageAllowed u rules [] value).1 = true ∧
      (isPackageAllowed u [] rules value).1 = false := by
  obtain ⟨rule, hrule, hlower⟩ := h
  have hne := hname.head.1
  have hclean : npmPackageFromPath u (trimSlashes value) = p := by
    rw [← hread]
    unfold npmPackageFromPath
    rw [trimSlashes_idem]
  have hany : rules.any (matchPackage u p) = true :=
    List.any_eq_true.mpr ⟨rule, hrule, matchPackage_name u hname hlower⟩
  have hrules : rules.isEmpty = false :=
    List.isEmpty_eq_false_iff.mpr (List.ne_nil_of_mem hrule)
  unfold isPackageAllowed
  simp only [hclean, hne, hany, hrules, List.isEmpty_nil, Bool.not_false, Bool.not_true,
    Bool.and_false, Bool.and_true, Bool.false_eq_true, if_false, if_true, and_self]

theorem mirrorAgrees_iff (value : Bytes) : MirrorAgrees u value ↔ Unpadded u value := by
  constructor
  · intro hagrees t ht hsome
    obtain ⟨p, hp⟩ := Option.isSome_iff_exists.mp hsome
    obtain ⟨hread, -⟩ := hagrees p ((accepted_iff u).mpr ⟨t, ht, hp⟩)
    obtain ⟨more, hparts⟩ := npmPackageFromPath_nameText u ht hp
    exact (packageOfParts_iff u hp more).mp (hparts.symm.trans hread)
  · intro hunpadded p haccepted
    obtain ⟨t, ht, hp⟩ := (accepted_iff u).mp haccepted
    obtain ⟨more, hparts⟩ := npmPackageFromPath_nameText u ht hp
    have htrim := hunpadded t ht (Option.isSome_iff_exists.mpr ⟨p, hp⟩)
    have hread : npmPackageFromPath u value = p :=
      hparts.trans ((packageOfParts_iff u hp more).mpr htrim)
    have hname := validName_name (normalizePackageName_some u hp).2
    exact ⟨hread, fun rules hrules => rules_decide u hname hread hrules⟩

theorem Name.parts {p : Bytes} (h : Name p) :
    (∀ c ∈ p.splitOn slash, ∃ x ∈ c, x ≠ Paths.dot) ∧ validNPMSegment (afterSlash p) = true ∧
      ∀ file, slash ∉ file →
        tarballPackage (p ++ slash :: dash :: slash :: file) = some p := by
  have hafter {base : Bytes} (hbase : validNPMSegment base = true) :
      ∀ c ∈ base.reverse, (c != slash) = true := by
    intro c hc
    rw [bne_iff_ne]
    rintro rfl
    exact segment_slash hbase (List.mem_reverse.mp hc)
  have hdot {s : Bytes} (hs : validNPMSegment s = true) : ∃ x ∈ s, x ≠ Paths.dot := by
    obtain ⟨⟨c, r, rfl, hc⟩, -⟩ := validNPMSegment_spec hs
    refine ⟨c, List.mem_cons_self .., ?_⟩
    rintro rfl
    cases hc
  have hdash : slash ∉ [dash] := by decide
  cases h with
  | plain hs =>
    have hslash := segment_slash hs
    refine ⟨?_, ?_, fun file hfile => ?_⟩
    · rw [List.splitOn_eq_singleton hslash]
      intro c hc
      rw [List.mem_singleton.mp hc]
      exact hdot hs
    · rwa [afterSlash, List.takeWhile_eq_self_iff.mpr (hafter hs), List.reverse_reverse]
    · have hsplit : (p ++ slash :: ([dash] ++ slash :: file)).splitOn slash =
          [p, [dash], file] := by
        rw [List.splitOn_append_cons_self_of_not_mem hslash,
          List.splitOn_append_cons_self_of_not_mem hdash, List.splitOn_eq_singleton hfile]
      unfold tarballPackage
      rw [show p ++ slash :: dash :: slash :: file =
        p ++ slash :: ([dash] ++ slash :: file) from rfl, hsplit]
      rfl
  | @inScope scope name hscope hname =>
    have hslash : slash ∉ commercialAt :: scope := by
      rw [List.mem_cons, not_or]
      exact ⟨by decide, segment_slash hscope⟩
    have hnameSlash := segment_slash hname
    refine ⟨?_, ?_, fun file hfile => ?_⟩
    · rw [List.splitOn_append_cons_self_of_not_mem hslash, List.splitOn_eq_singleton hnameSlash]
      intro c hc
      rcases List.mem_cons.mp hc with rfl | hc
      · exact ⟨commercialAt, List.mem_cons_self .., by decide⟩
      · rw [List.mem_singleton.mp hc]
        exact hdot hname
    · have hreverse : (commercialAt :: scope ++ slash :: name).reverse =
          name.reverse ++ slash :: (commercialAt :: scope).reverse := by simp
      rw [afterSlash, hreverse, List.takeWhile_append_of_pos (hafter hname),
        List.takeWhile_cons_of_neg (by decide), List.append_nil, List.reverse_reverse]
      exact hname
    · have hsplit : ((commercialAt :: scope) ++
          slash :: (name ++ slash :: ([dash] ++ slash :: file))).splitOn slash =
            [commercialAt :: scope, name, [dash], file] := by
        rw [List.splitOn_append_cons_self_of_not_mem hslash,
          List.splitOn_append_cons_self_of_not_mem hnameSlash,
          List.splitOn_append_cons_self_of_not_mem hdash, List.splitOn_eq_singleton hfile]
      unfold tarballPackage
      rw [List.append_assoc]
      rw [show (commercialAt :: scope) ++ (slash :: name ++ slash :: dash :: slash :: file) =
        (commercialAt :: scope) ++ slash :: (name ++ slash :: ([dash] ++ slash :: file)) from rfl,
        hsplit]
      rfl

theorem toNat_latin (b : UInt8) : (Char.ofNat b.toNat).toNat = b.toNat := by
  have hlt := b.toNat_lt
  exact UTF8.toNat_ofNat (.inl (by omega))

theorem latin_inj {a b : UInt8} (h : Char.ofNat a.toNat = Char.ofNat b.toNat) : a = b := by
  have hnat := congrArg Char.toNat h
  rwa [toNat_latin, toNat_latin, UInt8.toNat_inj] at hnat

theorem pathJoin_eq {elem : List Bytes} (hne : elem ≠ []) (helem : ∀ e ∈ elem, e ≠ [])
    (hparts : ∀ c ∈ ([slash].intercalate elem).splitOn slash, ∃ x ∈ c, x ≠ Paths.dot) :
    pathJoin elem = [slash].intercalate elem := by
  have hfilter : elem.filter (· ≠ []) = elem :=
    List.filter_eq_self.mpr fun e he => decide_eq_true (helem e he)
  have hjoin : ∀ cs : List Bytes, ([slash].intercalate cs).map (fun b => Char.ofNat b.toNat) =
      ['/'].intercalate (cs.map fun c => c.map fun b => Char.ofNat b.toNat) := by
    intro cs
    induction cs with
    | nil => rfl
    | cons c cs ih =>
      cases cs with
      | nil => simp
      | cons d cs =>
        rw [List.intercalate_cons_cons, List.map_append, ih]
        simp [List.intercalate_cons_cons, slash]
  have hclean : SlashPath.clean (([slash].intercalate elem).map fun b => Char.ofNat b.toNat) =
      ([slash].intercalate elem).map fun b => Char.ofNat b.toNat := by
    have hnoSep := SlashPath.splitOn_noSep slash ([slash].intercalate elem)
    have hback := hjoin (([slash].intercalate elem).splitOn slash)
    rw [List.intercalate_splitOn] at hback
    rw [hback]
    refine SlashPath.clean_names_joined (by simp [List.splitOn_ne_nil]) fun c hc => ?_
    obtain ⟨part, hpart, rfl⟩ := List.mem_map.mp hc
    obtain ⟨x, hx, hdot⟩ := hparts part hpart
    have hmem : Char.ofNat x.toNat ∈ part.map fun b => Char.ofNat b.toNat :=
      List.mem_map.mpr ⟨x, hx, rfl⟩
    have hnotDot : Char.ofNat x.toNat ≠ '.' := fun he => hdot (latin_inj he)
    refine ⟨List.ne_nil_of_mem hmem, fun he => ?_, fun he => ?_, fun hslash => ?_⟩
    · rw [he] at hmem
      exact hnotDot (List.mem_singleton.mp hmem)
    · rw [he] at hmem
      simp only [SlashPath.dotDot, List.mem_cons, List.not_mem_nil, or_false, or_self] at hmem
      exact hnotDot hmem
    · obtain ⟨y, hy, hyslash⟩ := List.mem_map.mp hslash
      have heq : y = slash := latin_inj hyslash
      exact hnoSep part hpart (heq ▸ hy)
  simp only [pathJoin, hfilter, if_neg hne, hclean, List.map_map]
  refine (List.map_congr_left fun b _ => ?_).trans (List.map_id _)
  rw [Function.comp_apply, toNat_latin, UInt8.ofNat_toNat]
  rfl

def tarballFile (p v : Bytes) : Bytes := afterSlash p ++ dash :: v ++ tgz

theorem tarballFile_slash {p v : Bytes} (h : Name p) (hv : slash ∉ v) :
    slash ∉ tarballFile p v := by
  have hbase := segment_slash h.parts.2.1
  have htgz : slash ∉ tgz := by decide
  have hdash : slash ≠ dash := by decide
  simp [tarballFile, hbase, hv, htgz, hdash]

theorem canonicalTarballPath_eq {p v : Bytes} (h : Name p) (hv : slash ∉ v) :
    canonicalTarballPath p v = p ++ slash :: dash :: slash :: tarballFile p v := by
  obtain ⟨hparts, -, -⟩ := h.parts
  have hfile := tarballFile_slash h hv
  have hfileNe : tarballFile p v ≠ [] := by simp [tarballFile]
  have hjoin : [slash].intercalate [p, [dash], tarballFile p v] =
      p ++ slash :: ([dash] ++ slash :: tarballFile p v) := by
    simp [List.intercalate_cons_cons]
  unfold canonicalTarballPath
  change pathJoin [p, [dash], tarballFile p v] = _
  rw [pathJoin_eq (List.cons_ne_nil _ _) ?_ ?_, hjoin]
  · rfl
  · intro e he
    simp only [List.mem_cons, List.not_mem_nil, or_false] at he
    rcases he with rfl | rfl | rfl
    · exact h.head.1
    · exact List.cons_ne_nil _ _
    · exact hfileNe
  · rw [hjoin, List.splitOn_append_cons_self, List.splitOn_append_cons_self_of_not_mem (by decide),
      List.splitOn_eq_singleton hfile]
    intro c hc
    rcases List.mem_append.mp hc with hc | hc
    · exact hparts c hc
    · simp only [List.mem_cons, List.not_mem_nil, or_false] at hc
      rcases hc with rfl | rfl
      · exact ⟨dash, by simp, by decide⟩
      · exact ⟨dash, by simp [tarballFile], by decide⟩

theorem version_bytes {semver : Semver} {v : Bytes} (h : validNPMVersion semver v = true) :
    ∀ c ∈ v, c ≠ slash ∧ c ≠ percent ∧ c ≠ 0 := by
  have hplain : ∀ n < 256, versionByte (UInt8.ofNat n) = true →
      UInt8.ofNat n ≠ slash ∧ UInt8.ofNat n ≠ percent ∧ UInt8.ofNat n ≠ 0 := by
    decide +kernel
  have hall : (TrimSpace.spaces.flatten.all fun c =>
      decide (c ≠ slash ∧ c ≠ percent ∧ c ≠ 0)) = true := by decide +kernel
  have hspace : ∀ code ∈ TrimSpace.spaces, ∀ c ∈ code, c ≠ slash ∧ c ≠ percent ∧ c ≠ 0 :=
    fun code hcode c hc =>
      of_decide_eq_true (List.all_eq_true.mp hall c (List.mem_flatten.mpr ⟨code, hcode, hc⟩))
  obtain ⟨a, b, hv, ha, hb⟩ := TrimSpace.trimSpace_split v
  simp only [validNPMVersion, Bool.and_eq_true] at h
  have hbytes := semver.bytes _ h.2
  intro c hc
  rw [hv] at hc
  rcases List.mem_append.mp hc with hc | hc
  · rcases List.mem_append.mp hc with hc | hc
    · obtain ⟨code, hcode, hmem⟩ := ha c hc
      exact hspace code hcode c hmem
    · have hbyte := hplain c.toNat c.toNat_lt
      rw [UInt8.ofNat_toNat] at hbyte
      exact hbyte (hbytes c (List.mem_cons_of_mem _ hc))
  · obtain ⟨code, hcode, hmem⟩ := hb c hc
    exact hspace code hcode c hmem

theorem decode_canonical {p v : Bytes} (h : Name p)
    (hv : ∀ c ∈ v, c ≠ slash ∧ c ≠ percent ∧ c ≠ 0) :
    decodeRegistryPath (canonicalTarballPath p v) = some (canonicalTarballPath p v) ∧
      (canonicalTarballPath p v).getLast? ≠ some slash := by
  have hslash : slash ∉ v := fun hmem => (hv _ hmem).1 rfl
  have hpath := canonicalTarballPath_eq h hslash
  have hbytes : ∀ c ∈ canonicalTarballPath p v, c ≠ percent ∧ c ≠ 0 := by
    have hsegment : ∀ c ∈ afterSlash p, c ≠ percent ∧ c ≠ 0 := fun c hc =>
      have hbyte := (segmentByte_spec ((validNPMSegment_spec h.parts.2.1).2 c hc)).1
      ⟨hbyte.percent, hbyte.zero⟩
    have htgz : ∀ c ∈ tgz, c ≠ percent ∧ c ≠ 0 := by decide +kernel
    intro c hc
    rw [hpath, tarballFile] at hc
    simp only [List.mem_append, List.mem_cons] at hc
    rcases hc with hc | rfl | rfl | rfl | (hc | rfl | hc) | hc
    · exact ⟨(h.bytes c hc).percent, (h.bytes c hc).zero⟩
    · decide
    · decide
    · decide
    · exact hsegment c hc
    · decide
    · exact (hv c hc).2
    · exact htgz c hc
  have hhead : (canonicalTarballPath p v).head? ≠ some slash := by
    rw [hpath, List.head?_append_of_ne_nil _ h.head.1]
    intro he
    cases h with
    | plain hs =>
      obtain ⟨⟨c, r, rfl, hc⟩, -⟩ := validNPMSegment_spec hs
      rw [Option.some.inj he] at hc
      cases hc
    | inScope hscope hname => cases he
  have hlast : (canonicalTarballPath p v).getLast? ≠ some slash := by
    have hend : canonicalTarballPath p v =
        (p ++ slash :: dash :: slash :: (afterSlash p ++ dash :: v)) ++ tgz := by
      rw [hpath, tarballFile]
      simp
    have htgz : tgz.getLast? = some 0x7A := by decide
    rw [hend, List.getLast?_append, htgz, Option.some_or]
    decide
  refine ⟨?_, hlast⟩
  unfold decodeRegistryPath
  rw [trimSlashes_fixed hhead hlast, Paths.pathUnescape_eq fun hmem => (hbytes _ hmem).1 rfl]
  have hzero : (canonicalTarballPath p v).contains 0 = false := by
    rw [List.contains_eq_mem]
    exact decide_eq_false fun hmem => (hbytes _ hmem).2 rfl
  simp only [hzero, Bool.false_eq_true, if_false, trimSlashes_fixed hhead hlast]

theorem pathBase_canonical {p v : Bytes} (h : Name p)
    (hv : ∀ c ∈ v, c ≠ slash ∧ c ≠ percent ∧ c ≠ 0) :
    pathBase (canonicalTarballPath p v) = tarballFile p v := by
  have hslash : slash ∉ v := fun hmem => (hv _ hmem).1 rfl
  have hfile := tarballFile_slash h hslash
  obtain ⟨-, hlast⟩ := decode_canonical h hv
  have hpath := canonicalTarballPath_eq h hslash
  have hne : canonicalTarballPath p v ≠ [] := by
    rw [hpath]
    simp [h.head.1]
  have hkept : (canonicalTarballPath p v).reverse.dropWhile (· == slash) =
      (canonicalTarballPath p v).reverse := by
    rw [← List.head?_reverse] at hlast
    cases hreverse : (canonicalTarballPath p v).reverse with
    | nil => rfl
    | cons c s =>
      rw [hreverse] at hlast
      rw [List.dropWhile_cons_of_neg]
      exact fun he => hlast (congrArg some (beq_iff_eq.mp he))
  have hafter : afterSlash (canonicalTarballPath p v) = tarballFile p v := by
    have hreverse : (canonicalTarballPath p v).reverse =
        (tarballFile p v).reverse ++ slash :: dash :: slash :: p.reverse := by
      rw [hpath]
      simp
    have hnoSep : ∀ c ∈ (tarballFile p v).reverse, (c != slash) = true := by
      intro c hc
      rw [bne_iff_ne]
      rintro rfl
      exact hfile (List.mem_reverse.mp hc)
    rw [afterSlash, hreverse, List.takeWhile_append_of_pos hnoSep,
      List.takeWhile_cons_of_neg (by decide), List.append_nil, List.reverse_reverse]
  have hfileNe : tarballFile p v ≠ [] := by simp [tarballFile]
  unfold pathBase
  rw [if_neg hne, hkept, List.reverse_reverse]
  simp only [hafter, if_neg hfileNe]

theorem classify_canonical {semver : Semver} {t p v : Bytes}
    (hp : normalizePackageName u t = some p) (hv : validNPMVersion semver v = true) :
    classifyTarballPath u semver (canonicalTarballPath p v) = some (p, v) := by
  have hname := validName_name (normalizePackageName_some u hp).2
  have hbytes := version_bytes hv
  have hslash : slash ∉ v := fun hmem => (hbytes _ hmem).1 rfl
  obtain ⟨hdecode, -⟩ := decode_canonical hname hbytes
  have hpackage : packageFromTarballPath u (canonicalTarballPath p v) = some p := by
    unfold packageFromTarballPath
    rw [hdecode, canonicalTarballPath_eq hname hslash]
    dsimp only
    rw [hname.parts.2.2 _ (tarballFile_slash hname hslash)]
    exact normalizePackageName_idem u hp
  have hfile : tarballFile p v = (afterSlash p ++ [dash]) ++ (v ++ tgz) := by simp [tarballFile]
  have hbefore : (afterSlash p ++ [dash]).isPrefixOf (tarballFile p v) = true :=
    List.isPrefixOf_iff_prefix.mpr ⟨v ++ tgz, hfile.symm⟩
  have hafter : tgz.isSuffixOf (tarballFile p v) = true :=
    List.isSuffixOf_iff_suffix.mpr ⟨afterSlash p ++ dash :: v, rfl⟩
  have hrest : tgz.isSuffixOf (v ++ tgz) = true := List.isSuffixOf_iff_suffix.mpr ⟨v, rfl⟩
  have hdrop : (tarballFile p v).drop (afterSlash p ++ [dash]).length = v ++ tgz := by
    rw [hfile, List.drop_left]
  have htake : (v ++ tgz).take ((v ++ tgz).length - tgz.length) = v := by
    rw [List.length_append, Nat.add_sub_cancel, List.take_left]
  unfold classifyTarballPath
  rw [hpackage, hdecode]
  simp only [Option.getD_some, pathBase_canonical hname hbytes, hbefore, hafter, hdrop, hrest,
    htake, hv, Bool.not_true, Bool.or_self, Bool.false_eq_true, if_false, if_true]

example : canonicalTarballPath (ascii "@team/pkg".toList) (ascii "1.0.0".toList) =
    ascii "@team/pkg/-/pkg-1.0.0.tgz".toList := by decide +kernel

def TarballsDistinct (semver : Semver) : Prop :=
  ∀ text p v, normalizePackageName u text = some p → validNPMVersion semver v = true →
    classifyTarballPath u semver (canonicalTarballPath p v) = some (p, v) ∧
    ∀ text' p' v', normalizePackageName u text' = some p' → validNPMVersion semver v' = true →
      canonicalTarballPath p' v' = canonicalTarballPath p v → p' = p ∧ v' = v

/-- The mirror rules are asked about the package of a path exactly where no white space stands
around its name. -/
theorem paths_agree_iff (semver : Semver) :
    (∀ value, MirrorAgrees u value ↔ Unpadded u value) ∧ TarballsDistinct u semver := by
  refine ⟨mirrorAgrees_iff u, fun text p v hp hv => ⟨classify_canonical u hp hv, ?_⟩⟩
  intro text' p' v' hp' hv' hpath
  have hclassified := classify_canonical u hp' hv'
  rw [hpath, classify_canonical u hp hv] at hclassified
  obtain ⟨rfl, rfl⟩ := Prod.mk.inj (Option.some.inj hclassified)
  exact ⟨rfl, rfl⟩

end

def asciiCase : UnicodeCase :=
  ⟨id, fun _ hc hlt => absurd hc (Nat.not_le_of_lt hlt), fun _ _ => rfl⟩

/-- ` pkg`, with the space escaped: the parser finds `pkg`, the rules are asked about ` pkg`. -/
theorem padded_escapes : packageFromMetadataPath asciiCase (ascii "%20pkg".toList) =
      some (ascii "pkg".toList) ∧
    (isPackageAllowed asciiCase [] [ascii "pkg".toList] (ascii "%20pkg".toList)).1 = true ∧
    ¬MirrorAgrees asciiCase (ascii "%20pkg".toList) := by
  have hpackage : packageFromMetadataPath asciiCase (ascii "%20pkg".toList) =
      some (ascii "pkg".toList) := by decide +kernel
  refine ⟨hpackage, by decide +kernel, fun hagrees => ?_⟩
  have hread := (hagrees _ (.inl hpackage)).1
  exact absurd hread (by decide +kernel)

end RenoP.Npm.PackagePath
