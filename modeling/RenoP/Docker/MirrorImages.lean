import Mathlib.Data.List.TakeWhile
import RenoP.Lib.RegExp
import RenoP.Lib.UTF8
import RenoP.Maven.MirrorRules

/-!
# Mirror rules of Docker images

What the allow and deny lists of a mirror say of an image name: the Docker part of
`IsArtifactAllowedFor` with `dockerImageFromPath` of `internal/config/mirror.go`.
-/

namespace RenoP.Docker

open RenoP.Database (Text trimSpace isSpace exists_ascii trimSpace_of_noSpace)
open RenoP.Maven (Mirror byteLength joinSlashes trimSlashes)
open UTF8 (unicodeToLower)

def isLowerAlnum (c : Char) : Bool := ('a' ≤ c && c ≤ 'z') || ('0' ≤ c && c ≤ '9')

/-- `[._]|__|-+` -/
def separator : RegExp.Pattern Char :=
  RegExp.alt (RegExp.one fun c => c == '.' || c == '_')
    (RegExp.alt (RegExp.times (· == '_') 2) (RegExp.plus (· == '-')))

/-- `[a-z0-9]+(?:(?:[._]|__|-+)[a-z0-9]+)*` -/
def dockerImageComponentPattern : RegExp.Pattern Char :=
  RegExp.seq (RegExp.plus isLowerAlnum)
    (RegExp.star (RegExp.seq separator (RegExp.plus isLowerAlnum)))

section

variable (table : Char → Char)

def normalizeImageName (value : Text) : Option Text :=
  let value := (trimSlashes (trimSpace value)).map (unicodeToLower table)
  if value = [] ∨ byteLength value > 255 ∨
      value.any (fun c => c == '\x00' || c == '\r' || c == '\n') = true then none
  else if (value.splitOn '/').all (RegExp.fullMatch dockerImageComponentPattern) then some value
  else none

def reservedWord (part : Text) : Bool :=
  part == "manifests".toList || part == "blobs".toList || part == "tags".toList

def dockerImageFromPath (path : Text) : Text :=
  let path := trimSlashes path
  if path = [] then []
  else
    let parts := path.splitOn '/'
    let parts := if parts.head? = some "v2".toList then parts.drop 1 else parts
    if parts = [] then []
    else
      match parts.findIdx? reservedWord with
      | some i => if 0 < i then (joinSlashes (parts.take i)).map (unicodeToLower table) else []
      | none => (joinSlashes parts).map (unicodeToLower table)

def matchImage (image pattern : Text) : Bool :=
  let pattern := (trimSpace pattern).map (unicodeToLower table)
  if pattern = [] then false
  else if ['/', '*'].isSuffixOf pattern then
    (pattern.take (pattern.length - 2) ++ ['/']).isPrefixOf image
  else decide (pattern = image)

/-- `IsArtifactAllowedFor` of the format `docker` -/
def isImageAllowed (m : Mirror) (path : Text) : Bool × Text :=
  let hasAllow := !m.allowArtifacts.isEmpty
  let hasDeny := !m.denyArtifacts.isEmpty
  if !hasAllow && !hasDeny then (true, [])
  else if hasAllow && hasDeny then (false, "Both allow and deny rules enabled on mirror".toList)
  else
    let clean := trimSlashes path
    let image := dockerImageFromPath table clean
    if image = [] then (true, [])
    else if hasAllow then
      if m.allowArtifacts.any (matchImage table image) then (true, [])
      else (false, "Docker image blocked: Not in mirror allow list (".toList ++ clean ++ [')'])
    else if m.denyArtifacts.any (matchImage table image) then
      (false, "Docker image blocked: In mirror deny list (".toList ++ clean ++ [')'])
    else (true, [])

end

def imageChar (c : Char) : Bool := isLowerAlnum c || c == '.' || c == '_' || c == '-'

theorem takes_alnum : RegExp.Takes (RegExp.plus isLowerAlnum)
    fun x => x ≠ [] ∧ ∀ c ∈ x, isLowerAlnum c = true := RegExp.takes_plus _

def IsSeparator (x : Text) : Prop :=
  (∃ c, x = [c] ∧ (c == '.' || c == '_') = true) ∨
    (x.length = 2 ∧ ∀ c ∈ x, (c == '_') = true) ∨ (x ≠ [] ∧ ∀ c ∈ x, (c == '-') = true)

theorem takes_separator : RegExp.Takes separator IsSeparator :=
  (RegExp.takes_one _).alt ((RegExp.takes_times _ 2).alt (RegExp.takes_plus _))

theorem imageChar_of_alnum {c : Char} (h : isLowerAlnum c = true) : imageChar c = true := by
  simp [imageChar, h]

theorem IsSeparator.chars {x : Text} (h : IsSeparator x) : ∀ c ∈ x, imageChar c = true := by
  intro c hc
  rcases h with ⟨d, rfl, hd⟩ | ⟨-, hall⟩ | ⟨-, hall⟩
  · rw [List.mem_singleton.mp hc]
    rcases Bool.or_eq_true _ _ |>.mp hd with hd | hd
    · simp [imageChar, hd]
    · simp [imageChar, hd]
  · simp [imageChar, hall c hc]
  · simp [imageChar, hall c hc]

theorem component_chars {s : Text}
    (h : RegExp.fullMatch dockerImageComponentPattern s = true) :
    s ≠ [] ∧ ∀ c ∈ s, imageChar c = true := by
  have hnil : ¬∃ u v : Text, [] = u ++ v ∧ IsSeparator u ∧ v ≠ [] ∧
      ∀ c ∈ v, isLowerAlnum c = true := by
    rintro ⟨u, v, huv, -, hv, -⟩
    exact hv (List.append_eq_nil_iff.mp huv.symm).2
  have htakes := takes_alnum.seq ((takes_separator.seq takes_alnum).star hnil)
  obtain ⟨u, v, rfl, ⟨hu, hfirst⟩, parts, rfl, hparts⟩ := (htakes.fullMatch s).mp h
  refine ⟨fun he => hu (List.append_eq_nil_iff.mp he).1, ?_⟩
  intro c hc
  rcases List.mem_append.mp hc with hc | hc
  · exact imageChar_of_alnum (hfirst c hc)
  · obtain ⟨part, hpart, hc⟩ := List.mem_flatten.mp hc
    obtain ⟨a, b, rfl, ha, -, hb⟩ := hparts part hpart
    rcases List.mem_append.mp hc with hc | hc
    · exact ha.chars c hc
    · exact imageChar_of_alnum (hb c hc)

theorem imageChar_ascii {c : Char} (h : imageChar c = true) : c.val < 128 := by
  simp only [imageChar, isLowerAlnum, Bool.or_eq_true, Bool.and_eq_true, decide_eq_true_eq,
    beq_iff_eq] at h
  rcases h with ((⟨⟨-, h⟩ | ⟨-, h⟩⟩ | rfl) | rfl) | rfl
  · exact UInt32.lt_of_le_of_lt h (by decide)
  · exact UInt32.lt_of_le_of_lt h (by decide)
  · decide
  · decide
  · decide

theorem imageChar_spec {c : Char} (h : imageChar c = true) :
    isSpace c = false ∧ c ≠ '/' ∧ c ≠ '*' ∧ c ≤ '\x7f' ∧ c.toLower = c := by
  obtain ⟨n, hn, rfl⟩ := exists_ascii (imageChar_ascii h)
  have hall : ∀ n < 128, imageChar (Char.ofNat n) = true → isSpace (Char.ofNat n) = false ∧
      Char.ofNat n ≠ '/' ∧ Char.ofNat n ≠ '*' ∧ Char.ofNat n ≤ '\x7f' ∧
        (Char.ofNat n).toLower = Char.ofNat n := by
    decide +kernel
  exact hall n hn h

structure ImageName where
  parts : List Text
  parts_ne : parts ≠ []
  components : ∀ p ∈ parts, p ≠ [] ∧ ∀ c ∈ p, imageChar c = true

def ImageName.text (n : ImageName) : Text := joinSlashes n.parts

theorem ImageName.ofNormalized {table : Char → Char} {value name : Text}
    (h : normalizeImageName table value = some name) : ∃ n : ImageName, n.text = name := by
  simp only [normalizeImageName] at h
  split_ifs at h with hbad hparts
  rw [← Option.some.inj h]
  refine ⟨⟨_, List.splitOn_ne_nil '/' _, fun p hp => ?_⟩, List.intercalate_splitOn '/'⟩
  exact component_chars (List.all_eq_true.mp hparts p hp)

theorem chars_join {parts : List Text} (h : ∀ p ∈ parts, ∀ c ∈ p, imageChar c = true) :
    ∀ c ∈ joinSlashes parts, imageChar c = true ∨ c = '/' := by
  induction parts with
  | nil => exact fun c hc => absurd hc List.not_mem_nil
  | cons p parts ih =>
    intro c hc
    cases parts with
    | nil =>
      rw [joinSlashes, List.intercalate_singleton] at hc
      exact .inl (h p (List.mem_cons_self ..) c hc)
    | cons q parts =>
      rw [joinSlashes, List.intercalate_cons_cons] at hc
      rcases List.mem_append.mp hc with hc | hc
      · rcases List.mem_append.mp hc with hc | hc
        · exact .inl (h p (List.mem_cons_self ..) c hc)
        · exact .inr (List.mem_singleton.mp hc)
      · exact ih (fun r hr => h r (List.mem_cons_of_mem p hr)) c hc

/-- What is left of the components: those from `v2` to the first reserved word. -/
def readParts (parts : List Text) : List Text :=
  (if parts.head? = some "v2".toList then parts.drop 1 else parts).takeWhile fun p =>
    !reservedWord p

def readName (name : Text) : Text := joinSlashes (readParts (name.splitOn '/'))

/-- No component is a reserved word and the first is not `v2`. -/
def PlainName (name : Text) : Prop :=
  (name.splitOn '/').head? ≠ some "v2".toList ∧ ∀ p ∈ name.splitOn '/', reservedWord p = false

section

variable (n : ImageName)

theorem readParts_sublist (parts : List Text) : (readParts parts).Sublist parts := by
  unfold readParts
  split_ifs with h
  · exact (List.takeWhile_sublist _).trans (List.drop_sublist _ _)
  · exact List.takeWhile_sublist _

theorem ImageName.chars {parts : List Text} (h : parts.Sublist n.parts) :
    ∀ c ∈ joinSlashes parts, isSpace c = false ∧ c ≠ '*' ∧ ∀ table, unicodeToLower table c = c := by
  intro c hc
  have hparts : ∀ p ∈ parts, ∀ c ∈ p, imageChar c = true := fun p hp =>
    (n.components p (h.subset hp)).2
  rcases chars_join hparts c hc with hc | rfl
  · obtain ⟨hspace, -, hstar, hle, hlower⟩ := imageChar_spec hc
    exact ⟨hspace, hstar, fun table => by rw [unicodeToLower, if_pos hle, hlower]⟩
  · exact ⟨by decide, by decide, fun table => by rw [unicodeToLower, if_pos (by decide)]; rfl⟩

theorem ImageName.lower (table : Char → Char) {parts : List Text} (h : parts.Sublist n.parts) :
    (joinSlashes parts).map (unicodeToLower table) = joinSlashes parts :=
  (List.map_congr_left fun c hc => (n.chars h c hc).2.2 table).trans (List.map_id _)

theorem ImageName.noSlash : ∀ p ∈ n.parts, p ≠ [] ∧ '/' ∉ p := by
  intro p hp
  obtain ⟨hne, hchars⟩ := n.components p hp
  exact ⟨hne, fun hslash => absurd (hchars _ hslash) (by decide)⟩

theorem joinSlashes_ne_nil {parts : List Text} (hne : parts ≠ []) (h : ∀ p ∈ parts, p ≠ []) :
    joinSlashes parts ≠ [] := by
  obtain ⟨p, ps, rfl⟩ := List.exists_cons_of_ne_nil hne
  have hp := h p (List.mem_cons_self ..)
  cases ps with
  | nil => simpa [joinSlashes] using hp
  | cons q qs => simp [joinSlashes, hp]

theorem ImageName.split : n.text.splitOn '/' = n.parts :=
  List.splitOn_intercalate '/' (fun p hp => (n.noSlash p hp).2) n.parts_ne

theorem dockerImageFromPath_text (table : Char → Char) :
    dockerImageFromPath table (trimSlashes n.text) = readName n.text := by
  obtain ⟨htrim, hne⟩ := Maven.trimSlashes_join n.parts_ne n.noSlash
  have hsplit := n.split
  unfold ImageName.text at hsplit
  unfold dockerImageFromPath readName ImageName.text
  simp only [htrim, if_neg hne, hsplit]
  have hread := readParts_sublist n.parts
  have hlower := n.lower table hread
  unfold readParts at hlower ⊢
  generalize (if n.parts.head? = some "v2".toList then n.parts.drop 1 else n.parts) = parts at *
  split_ifs with hparts
  · rw [hparts]
    rfl
  · rw [← hlower, List.takeWhile_eq_take_findIdx_not]
    simp only [Bool.not_not]
    cases hindex : parts.findIdx? reservedWord with
    | none =>
      have hall := List.findIdx?_eq_none_iff.mp hindex
      rw [List.take_of_length_le]
      exact le_of_eq (List.findIdx_eq_length_of_false hall).symm
    | some i =>
      obtain ⟨-, hi⟩ := List.findIdx?_eq_some_iff_findIdx_eq.mp hindex
      simp only [hi]
      split_ifs with hpos
      · rfl
      · rw [Nat.eq_zero_of_not_pos hpos]
        rfl

theorem readParts_eq_self : readParts n.parts = n.parts ↔ PlainName n.text := by
  unfold readParts PlainName
  rw [n.split]
  constructor
  · intro h
    split_ifs at h with hhead
    · have hlength := congrArg List.length h
      have hle :=
        (List.takeWhile_sublist (fun p => !reservedWord p) (l := n.parts.drop 1)).length_le
      have hpos := List.length_pos_iff.mpr n.parts_ne
      rw [List.length_drop] at hle
      omega
    · refine ⟨hhead, fun p hp => ?_⟩
      simpa using List.takeWhile_eq_self_iff.mp h p hp
  · rintro ⟨hhead, hall⟩
    rw [if_neg hhead, List.takeWhile_eq_self_iff]
    intro p hp
    simpa using hall p hp

theorem ImageName.text_ne : n.text ≠ [] :=
  joinSlashes_ne_nil n.parts_ne fun p hp => (n.noSlash p hp).1

theorem readName_eq_self : readName n.text = n.text ↔ PlainName n.text := by
  rw [← readParts_eq_self]
  unfold readName
  rw [n.split]
  refine ⟨fun h => ?_, fun h => by rw [h, ImageName.text]⟩
  have hread : ∀ p ∈ readParts n.parts, '/' ∉ p := fun p hp =>
    (n.noSlash p ((readParts_sublist _).subset hp)).2
  have hsplit := congrArg (List.splitOn '/') h
  rw [n.split] at hsplit
  by_cases hnil : readParts n.parts = []
  · rw [hnil] at h
    exact absurd h.symm n.text_ne
  · rwa [joinSlashes, List.splitOn_intercalate '/' hread hnil] at hsplit

theorem ImageName.text_chars : ∀ c ∈ n.text, isSpace c = false ∧ c ≠ '*' :=
  fun c hc => ⟨(n.chars (List.Sublist.refl _) c hc).1, (n.chars (List.Sublist.refl _) c hc).2.1⟩

theorem ImageName.read_chars : '*' ∉ readName n.text := by
  unfold readName
  rw [n.split]
  exact fun h => (n.chars (readParts_sublist _) _ h).2.1 rfl

end

section

variable (table : Char → Char)

def imageRules (m : Mirror) : List Text :=
  ((m.allowArtifacts ++ m.denyArtifacts).map fun rule =>
    (trimSpace rule).map (unicodeToLower table)).filter (· ≠ [])

def CoversImage (image rule : Text) : Prop :=
  rule = image ∨ ∃ before, rule = before ++ ['/', '*'] ∧ before ++ ['/'] <+: image

def SomeRuleCovers (m : Mirror) (image : Text) : Prop :=
  ∃ rule ∈ imageRules table m, CoversImage image rule

def AllowsImage (m : Mirror) (image : Text) : Prop :=
  if m.denyArtifacts = [] then SomeRuleCovers table m image else ¬SomeRuleCovers table m image

def RightlyJudged (m : Mirror) (name : Text) : Prop :=
  (isImageAllowed table m name).1 = true ↔ AllowsImage table m name

variable {table}

theorem matchImage_iff {image rule : Text} (hstar : '*' ∉ image) :
    matchImage table image rule = true ↔
      (trimSpace rule).map (unicodeToLower table) ≠ [] ∧
        CoversImage image ((trimSpace rule).map (unicodeToLower table)) := by
  unfold matchImage CoversImage
  generalize (trimSpace rule).map (unicodeToLower table) = pattern
  simp only
  split_ifs with hempty hbelow
  · simp [hempty]
  · obtain ⟨before, hbefore⟩ := List.isSuffixOf_iff_suffix.mp hbelow
    have htake : pattern.take (pattern.length - 2) = before := by
      rw [← hbefore]
      simp
    rw [htake, List.isPrefixOf_iff_prefix, ← hbefore]
    constructor
    · intro h
      exact ⟨by simp, .inr ⟨before, rfl, h⟩⟩
    · rintro ⟨-, rfl | ⟨other, hother, h⟩⟩
      · exact absurd (by simp) hstar
      · rwa [List.append_cancel_right hother]
  · rw [decide_eq_true_eq]
    constructor
    · intro h
      exact ⟨hempty, .inl h⟩
    · rintro ⟨-, h | ⟨before, rfl, -⟩⟩
      · exact h
      · exact absurd (List.isSuffixOf_iff_suffix.mpr ⟨before, rfl⟩) hbelow

theorem any_matchImage {m : Mirror} (rules : List Text) {image : Text} (hstar : '*' ∉ image)
    (hrules : m.allowArtifacts ++ m.denyArtifacts = rules) :
    rules.any (matchImage table image) = true ↔ SomeRuleCovers table m image := by
  unfold SomeRuleCovers imageRules
  rw [List.any_eq_true, hrules]
  constructor
  · rintro ⟨rule, hrule, hmatch⟩
    obtain ⟨hempty, hcovers⟩ := (matchImage_iff hstar).mp hmatch
    refine ⟨_, List.mem_filter.mpr ⟨List.mem_map_of_mem hrule, ?_⟩, hcovers⟩
    simpa using hempty
  · rintro ⟨pattern, hpattern, hcovers⟩
    obtain ⟨hmem, hempty⟩ := List.mem_filter.mp hpattern
    obtain ⟨rule, hrule, rfl⟩ := List.mem_map.mp hmem
    exact ⟨rule, hrule, (matchImage_iff hstar).mpr ⟨by simpa using hempty, hcovers⟩⟩

theorem isImageAllowed_iff {m : Mirror} (hone : m.OneList) (n : ImageName) :
    (isImageAllowed table m n.text).1 = true ↔
      readName n.text = [] ∨ AllowsImage table m (readName n.text) := by
  have hstar := n.read_chars
  unfold isImageAllowed AllowsImage
  simp only [dockerImageFromPath_text]
  by_cases hdeny : m.denyArtifacts = []
  · have hallow : m.allowArtifacts.isEmpty = false :=
      List.isEmpty_eq_false_iff.mpr fun h => absurd hdeny (hone.mp h)
    have hmatch := @any_matchImage table m m.allowArtifacts _ hstar (by rw [hdeny, List.append_nil])
    rw [if_pos hdeny, ← hmatch, hdeny]
    simp only [hallow, List.isEmpty_nil, Bool.not_true, Bool.not_false, Bool.and_false,
      Bool.false_and, Bool.false_eq_true, if_false, if_true]
    split_ifs with hread hany
    · exact iff_of_true rfl (.inl hread)
    · exact iff_of_true rfl (.inr hany)
    · exact iff_of_false not_false (not_or_intro hread hany)
  · have hallow : m.allowArtifacts = [] := hone.mpr hdeny
    have hmatch := @any_matchImage table m m.denyArtifacts _ hstar (by rw [hallow, List.nil_append])
    rw [if_neg hdeny, ← hmatch, hallow, List.isEmpty_eq_false_iff.mpr hdeny]
    simp only [List.isEmpty_nil, Bool.not_true, Bool.not_false, Bool.and_false,
      Bool.and_true, Bool.false_eq_true, if_false]
    split_ifs with hread hany
    · exact iff_of_true rfl (.inl hread)
    · exact iff_of_false not_false (not_or_intro hread (not_not_intro hany))
    · exact iff_of_true rfl (.inr hany)

/-- The rules say the same of the name and of what is read of it; where nothing is read, they
allow the name. -/
def JudgedAlike (table : Char → Char) (m : Mirror) (name : Text) : Prop :=
  if readName name = [] then AllowsImage table m name
  else SomeRuleCovers table m (readName name) ↔ SomeRuleCovers table m name

theorem rightlyJudged_iff_alike {m : Mirror} (hone : m.OneList) (n : ImageName) :
    RightlyJudged table m n.text ↔ JudgedAlike table m n.text := by
  unfold RightlyJudged JudgedAlike
  rw [isImageAllowed_iff hone]
  split_ifs with hread
  · exact iff_true_left (.inl hread)
  · unfold AllowsImage
    rw [or_iff_right hread]
    split_ifs
    · rfl
    · rw [not_iff_not]

def denyOnly (name : Text) : Mirror := ⟨[], [name]⟩

theorem denyOnly_oneList (name : Text) : (denyOnly name).OneList :=
  iff_of_true rfl (List.cons_ne_nil _ _)

theorem allowsImage_denyOnly (name image : Text) :
    AllowsImage table (denyOnly name) image ↔ ¬SomeRuleCovers table (denyOnly name) image := by
  have hdeny : (denyOnly name).denyArtifacts ≠ [] := List.cons_ne_nil _ _
  rw [AllowsImage, if_neg hdeny]

theorem imageRules_denyOnly (n : ImageName) : imageRules table (denyOnly n.text) = [n.text] := by
  have hspace : trimSpace n.text = n.text := trimSpace_of_noSpace fun c hc => (n.text_chars c hc).1
  have hlower : n.text.map (unicodeToLower table) = n.text := n.lower table (List.Sublist.refl _)
  unfold imageRules denyOnly
  rw [List.nil_append, List.map_singleton, hspace, hlower]
  simp [n.text_ne]

theorem denyOnly_misjudged {n : ImageName} (h : ¬PlainName n.text) :
    ¬RightlyJudged table (denyOnly n.text) n.text := by
  have hcovers : SomeRuleCovers table (denyOnly n.text) n.text :=
    ⟨n.text, by rw [imageRules_denyOnly]; exact List.mem_singleton.mpr rfl, .inl rfl⟩
  rw [rightlyJudged_iff_alike (denyOnly_oneList _)]
  unfold JudgedAlike
  split_ifs with hread
  · rw [allowsImage_denyOnly]
    exact not_not_intro hcovers
  · intro hsame
    obtain ⟨rule, hrule, hmatch⟩ := hsame.mpr hcovers
    rw [imageRules_denyOnly, List.mem_singleton] at hrule
    rw [hrule] at hmatch
    rcases hmatch with hmatch | ⟨before, hbefore, -⟩
    · exact h ((readName_eq_self n).mp hmatch.symm)
    · exact (n.text_chars '*' (by simp [hbefore])).2 rfl

end

/-- A mirror judges a name as its rules say where the name is plain. A name that is not is judged
by what stands before its reserved word: that does no harm where the rules say the same of both,
and some mirror misjudges it. -/
theorem image_rules_iff {table : Char → Char} {value name : Text}
    (h : normalizeImageName table value = some name) :
    (∀ m : Mirror, m.OneList →
      (RightlyJudged table m name ↔ PlainName name ∨ JudgedAlike table m name)) ∧
    ((∀ m : Mirror, m.OneList → RightlyJudged table m name) ↔ PlainName name) := by
  obtain ⟨n, rfl⟩ := ImageName.ofNormalized h
  have halike (m : Mirror) (hplain : PlainName n.text) : JudgedAlike table m n.text := by
    unfold JudgedAlike
    rw [(readName_eq_self n).mpr hplain, if_neg n.text_ne]
  refine ⟨fun m hone => ?_, fun hall => ?_, fun hplain m hone => ?_⟩
  · rw [rightlyJudged_iff_alike hone]
    exact ⟨.inr, fun h => h.elim (halike m) id⟩
  · by_contra hplain
    exact denyOnly_misjudged hplain (hall _ (denyOnly_oneList _))
  · exact (rightlyJudged_iff_alike hone n).mpr (halike m hplain)

theorem image_rules_redis :
    ((∀ m : Mirror, m.OneList → (RightlyJudged id m "library/redis".toList ↔
      PlainName "library/redis".toList ∨ JudgedAlike id m "library/redis".toList)) ∧
    ((∀ m : Mirror, m.OneList → RightlyJudged id m "library/redis".toList) ↔
      PlainName "library/redis".toList)) ∧ PlainName "library/redis".toList :=
  ⟨@image_rules_iff id " Library/Redis/".toList _ (by decide +kernel), by
    unfold PlainName
    decide +kernel⟩

/-- The image `manifests` of a project, denied by its name, is fetched as the project's own. -/
theorem manifests_image_escapes :
    normalizeImageName id "project/manifests".toList = some "project/manifests".toList ∧
      (denyOnly "project/manifests".toList).OneList ∧
      ¬RightlyJudged id (denyOnly "project/manifests".toList) "project/manifests".toList := by
  refine ⟨by decide +kernel, denyOnly_oneList _, fun h => ?_⟩
  have hcovers : SomeRuleCovers id (denyOnly "project/manifests".toList)
      "project/manifests".toList := ⟨_, by decide +kernel, .inl rfl⟩
  exact (allowsImage_denyOnly _ _).mp (h.mp (by decide +kernel)) hcovers

end RenoP.Docker
