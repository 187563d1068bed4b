import RenoP.Lib.Nested
import RenoP.Native.ControlFile
import Mathlib.Data.List.Sort

/-!
# The package index of an APT repository

`PackageLocation` and `PackageIndex` of `internal/service/nativepkg/apt/index.go`. Every failure is
`ErrInvalidPackage`. The index is read back stanza by stanza, which are told apart by empty lines.
-/

namespace RenoP.Native.Apt

open Lines (newline carriageReturn)
open TrimSpace (trimSpace)
open GoMap (RangeOrder)

structure Package where
  filename : Bytes
  fields : GoMap Bytes Bytes

def packageLocation (filename : Bytes) : Bytes × Bytes :=
  match filename.splitOn 0x2F with
  | first :: second :: third :: rest =>
    if first = text "dists" ∧ rest ≠ [] then (second, third)
    else if first = text "pool" then ([], second)
    else ([], text "main")
  | _ => ([], text "main")

def selected (suite component architecture : Bytes) (pkg : Package) : Bool :=
  let (pkgSuite, pkgComponent) := packageLocation pkg.filename
  let pkgArchitecture := (pkg.fields.load (text "Architecture")).getD []
  !((pkgSuite != [] && pkgSuite != suite) || (component != [] && pkgComponent != component)) &&
    !(architecture != [] && pkgArchitecture != architecture && pkgArchitecture != text "all")

def maxPackages : ℕ := 10000
def maxIndexBytes : ℕ := 32 * 2 ^ 20

def fieldText (key value : Bytes) : Bytes := key ++ text ": " ++ value ++ [newline]

def writeFields (fields : GoMap Bytes Bytes) : List Bytes → Bytes → Option Bytes
  | [], output => some output
  | key :: keys, output =>
    let value := (fields.load key).getD []
    if output.length + key.length + value.length + 4 > maxIndexBytes then none
    else writeFields fields keys (output ++ fieldText key value)

def sortedKeys (o : RangeOrder Bytes Bytes) (fields : GoMap Bytes Bytes) : List Bytes :=
  (o.keys fields).insertionSort fun a b => ¬b < a

def writePackages (o : RangeOrder Bytes Bytes) (suite component architecture : Bytes) :
    List (Option Package) → Bytes → Option Bytes
  | [], output => some output
  | none :: _, _ => none
  | some pkg :: packages, output =>
    if selected suite component architecture pkg = false then
      writePackages o suite component architecture packages output
    else
      match writeFields pkg.fields (sortedKeys o pkg.fields) output with
      | none => none
      | some output =>
        writePackages o suite component architecture packages (output ++ [newline])

/-- `PackageIndex`; a nil package is none. -/
def packageIndex (o : RangeOrder Bytes Bytes) (packages : List (Option Package))
    (suite component architecture : Bytes) : Option Bytes :=
  if packages.length > maxPackages then none
  else writePackages o suite component architecture packages []

def stanzas (index : Bytes) : List Bytes :=
  (((index.splitOn newline).splitOn []).filter (· ≠ [])).map [newline].intercalate

def fieldLines (key value : Bytes) : List Bytes := (key ++ text ": " ++ value).splitOn newline

theorem splitOn_valueOf {s first : Bytes} {more : List Bytes} (hs : newline ∉ s)
    (h : ValueOk first more) : (s ++ valueOf first more).splitOn newline = (s ++ first) :: more := by
  have hmore : ∀ line : Bytes, newline ∉ line → ∀ more : List Bytes, (∀ l ∈ more, newline ∉ l) →
      (line ++ more.flatMap fun l => newline :: l).splitOn newline = line :: more := by
    intro line hline more hmore
    induction more generalizing line with
    | nil => rw [List.flatMap_nil, List.append_nil, List.splitOn_eq_singleton hline]
    | cons l more ih =>
      rw [List.flatMap_cons, List.cons_append, List.splitOn_append_cons_self_of_not_mem hline,
        ih l (hmore l (List.mem_cons_self ..)) fun l' hl' => hmore l' (List.mem_cons_of_mem l hl')]
  unfold valueOf
  rw [← List.append_assoc]
  apply hmore
  · rw [List.mem_append, not_or]
    exact ⟨hs, h.line⟩
  · exact fun l hl => (h.more_lines l hl).1

theorem NameOk.no_colon {key : Bytes} (h : NameOk key) : ∀ c ∈ key, blankByte c = false ∧
    c ≠ colon ∧ c ≠ newline :=
  fun c hc => keyByte_spec (List.all_eq_true.mp h.bytes c hc)

theorem fieldLines_eq {key first : Bytes} {more : List Bytes} (hkey : NameOk key)
    (h : ValueOk first more) :
    fieldLines key (valueOf first more) = (key ++ colon :: 0x20 :: first) :: more := by
  have hs : newline ∉ key ++ text ": " := by
    rw [List.mem_append, not_or]
    exact ⟨fun hc => (hkey.no_colon newline hc).2.2 rfl, by decide⟩
  unfold fieldLines
  rw [splitOn_valueOf hs h, List.append_assoc]
  rfl

theorem cutColon_key {key value : Bytes} (h : NameOk key) :
    cutColon (key ++ colon :: value) = some (key, value) := by
  have hkey : ∀ c ∈ key, (c != colon) = true := fun c hc => bne_iff_ne.mpr (h.no_colon c hc).2.1
  have hcolon : (colon != colon) = false := by decide
  unfold cutColon
  rw [List.dropWhile_append_of_pos hkey, List.takeWhile_append_of_pos hkey, List.dropWhile_cons,
    List.takeWhile_cons, hcolon, if_neg Bool.false_ne_true, if_neg Bool.false_ne_true,
    List.append_nil]

theorem parseLine_name {key first : Bytes} {more : List Bytes} (hkey : NameOk key)
    (h : ValueOk first more) {st : ControlState} (hseen : lower key ∉ st.seen) :
    parseLine st (key ++ colon :: 0x20 :: first) =
      some ⟨st.fields.store key first, lower key :: st.seen, key⟩ := by
  have hcut := @cutColon_key key (0x20 :: first) hkey
  have htrim : trimSpace (0x20 :: first) = first := by
    rw [← h.trimmed]
    exact (@TrimSpace.trimSpace_blanks [0x20] (by decide +kernel) _).trans
      (TrimSpace.trimSpace_idem first)
  cases key with
  | nil => exact absurd rfl hkey.ne_nil
  | cons c key =>
    rw [List.cons_append] at hcut ⊢
    unfold parseLine
    dsimp only
    rw [(hkey.no_colon c (List.mem_cons_self ..)).1, if_neg Bool.false_ne_true, hcut]
    dsimp only
    have hnew : ¬st.seen.contains (lower (c :: key)) = true :=
      fun hmem => hseen (List.contains_iff_mem.mp hmem)
    rw [if_neg (not_or.mpr ⟨hkey.ne_nil, hnew⟩), if_neg (by rw [hkey.bytes]; exact nofun), htrim,
      hkey.canonical]

theorem parseLines_more {first : Bytes} {done more : List Bytes} {st : ControlState}
    (hlast : st.last ≠ []) (hload : st.fields.load st.last = some (valueOf first done))
    (hmore : ∀ line ∈ more, newline ∉ line ∧ ∃ c rest, line = c :: rest ∧ blankByte c = true) :
    ∃ st', parseLines st more = some st' ∧ st'.seen = st.seen ∧
      ∀ k, st'.fields.load k =
        if k = st.last then some (valueOf first (done ++ more)) else st.fields.load k := by
  induction more generalizing done st with
  | nil =>
    refine ⟨st, rfl, rfl, fun k => ?_⟩
    rw [List.append_nil]
    split_ifs with hk
    · rw [hk, hload]
    · rfl
  | cons line more ih =>
    obtain ⟨-, c, rest, rfl, hblank⟩ := hmore line (List.mem_cons_self ..)
    have hline : parseLine st (c :: rest) = some { st with
        fields := st.fields.store st.last (valueOf first (done ++ [c :: rest])) } := by
      unfold parseLine
      dsimp only
      rw [if_pos hblank, if_neg hlast, hload, Option.getD_some, valueOf_append]
    obtain ⟨st', hrest, hseen, hload'⟩ := @ih (done ++ [c :: rest])
      { st with fields := st.fields.store st.last (valueOf first (done ++ [c :: rest])) } hlast
      (GoMap.load_store_self _ _ _) (fun l hl => hmore l (List.mem_cons_of_mem _ hl))
    refine ⟨st', ?_, hseen, fun k => ?_⟩
    · unfold parseLines
      rw [hline]
      exact hrest
    · rw [hload' k, List.append_assoc]
      split_ifs with hk
      · rfl
      · exact GoMap.load_store_ne _ _ hk

theorem parseLines_append (lines lines' : List Bytes) (st : ControlState) :
    parseLines st (lines ++ lines') = (parseLines st lines).bind fun st => parseLines st lines' := by
  induction lines generalizing st with
  | nil => rfl
  | cons line lines ih =>
    rw [List.cons_append, parseLines, parseLines, Option.bind_assoc]
    congr 1
    funext st
    exact ih st

theorem parseLines_field {key first : Bytes} {more : List Bytes} (hkey : NameOk key)
    (h : ValueOk first more) {st : ControlState} (hseen : lower key ∉ st.seen) :
    ∃ st', parseLines st (fieldLines key (valueOf first more)) = some st' ∧
      st'.seen = lower key :: st.seen ∧
      ∀ k, st'.fields.load k = if k = key then some (valueOf first more) else st.fields.load k := by
  obtain ⟨st', hmore, hseen', hload⟩ := @parseLines_more first [] more
    ⟨st.fields.store key first, lower key :: st.seen, key⟩ hkey.ne_nil
    (by rw [GoMap.load_store_self, valueOf, List.flatMap_nil, List.append_nil]) h.more_lines
  refine ⟨st', ?_, hseen', fun k => ?_⟩
  · rw [fieldLines_eq hkey h, parseLines, parseLine_name hkey h hseen]
    exact hmore
  · rw [hload k]
    dsimp only
    split_ifs with hk
    · rfl
    · exact GoMap.load_store_ne _ _ hk

def packageLines (fields : GoMap Bytes Bytes) (keys : List Bytes) : List Bytes :=
  keys.flatMap fun key => fieldLines key ((fields.load key).getD [])

theorem parseLines_package {fields : GoMap Bytes Bytes} (h : FieldsOk fields) {keys : List Bytes}
    (hkeys : ∀ key ∈ keys, fields.has key = true) (hnodup : keys.Nodup) {st : ControlState}
    (hseen : ∀ key ∈ keys, lower key ∉ st.seen) :
    ∃ st', parseLines st (packageLines fields keys) = some st' ∧
      ∀ k, st'.fields.load k = if k ∈ keys then fields.load k else st.fields.load k := by
  induction keys generalizing st with
  | nil => exact ⟨st, rfl, fun k => rfl⟩
  | cons key keys ih =>
    obtain ⟨value, hvalue⟩ := (GoMap.has_eq_true _ _).mp (hkeys key (List.mem_cons_self ..))
    obtain ⟨hname, -, first, more, rfl, hok⟩ := h key value hvalue
    obtain ⟨st₁, hfield, hseen₁, hload₁⟩ :=
      parseLines_field hname hok (hseen key (List.mem_cons_self ..))
    obtain ⟨hnot, hrest⟩ := List.nodup_cons.mp hnodup
    have hseen' : ∀ key' ∈ keys, lower key' ∉ st₁.seen := by
      intro key' hkey' hmem
      rw [hseen₁] at hmem
      rcases List.mem_cons.mp hmem with hsame | hold
      · obtain ⟨value', hvalue'⟩ :=
          (GoMap.has_eq_true _ _).mp (hkeys key' (List.mem_cons_of_mem key hkey'))
        exact hnot ((h key' value' hvalue').1.inj hname hsame ▸ hkey')
      · exact hseen key' (List.mem_cons_of_mem key hkey') hold
    obtain ⟨st', hparse, hload'⟩ := ih (fun k hk => hkeys k (List.mem_cons_of_mem key hk)) hrest hseen'
    refine ⟨st', ?_, fun k => ?_⟩
    · unfold packageLines
      rw [List.flatMap_cons, parseLines_append, hvalue, Option.getD_some, hfield]
      exact hparse
    · rw [hload' k, hload₁ k]
      by_cases hk : k = key
      · subst hk
        rw [if_neg hnot, if_pos rfl, if_pos (List.mem_cons_self ..), hvalue]
      · rw [if_neg hk]
        by_cases hmem : k ∈ keys
        · rw [if_pos hmem, if_pos (List.mem_cons_of_mem key hmem)]
        · rw [if_neg hmem, if_neg (fun hin => (List.mem_cons.mp hin).elim hk hmem)]

theorem fieldLines_ok {key first : Bytes} {more : List Bytes} (hkey : NameOk key)
    (h : ValueOk first more) : ∀ line ∈ fieldLines key (valueOf first more), line ≠ [] := by
  rw [fieldLines_eq hkey h]
  intro line hline
  rcases List.mem_cons.mp hline with rfl | hmore
  · exact List.append_ne_nil_of_left_ne_nil hkey.ne_nil _
  · obtain ⟨-, c, rest, rfl, -⟩ := h.more_lines line hmore
    exact List.cons_ne_nil c rest

theorem packageLines_ok {fields : GoMap Bytes Bytes} (h : FieldsOk fields) {keys : List Bytes}
    (hkeys : ∀ key ∈ keys, fields.has key = true) :
    ∀ line ∈ packageLines fields keys, newline ∉ line ∧ line ≠ [] ∧ plain line := by
  intro line hline
  obtain ⟨key, hkey, hmem⟩ := List.mem_flatMap.mp hline
  obtain ⟨value, hvalue⟩ := (GoMap.has_eq_true _ _).mp (hkeys key hkey)
  obtain ⟨hname, hplain, first, more, rfl, hok⟩ := h key value hvalue
  rw [hvalue, Option.getD_some] at hmem
  refine ⟨SlashPath.splitOn_noSep newline _ line hmem, fieldLines_ok hname hok line hmem, ?_⟩
  intro c hc
  have hin := mem_of_splitOn hmem hc
  rcases List.mem_append.mp hin with hin | hin
  · rcases List.mem_append.mp hin with hin | hin
    · exact keyByte_plain (List.all_eq_true.mp hname.bytes c hin)
    · have hcolon : ∀ c ∈ text ": ", c ≠ 0 ∧ c ≠ carriageReturn := by
        rw [show text ": " = [0x3A, 0x20] from rfl]
        simp [carriageReturn]
      exact hcolon c hin
  · exact hplain c hin

theorem packageLines_ne {fields : GoMap Bytes Bytes} {keys : List Bytes} (h : keys ≠ []) :
    packageLines fields keys ≠ [] := by
  obtain ⟨key, rest, rfl⟩ := List.exists_cons_of_ne_nil h
  unfold packageLines fieldLines
  rw [List.flatMap_cons]
  exact List.append_ne_nil_of_left_ne_nil (List.splitOn_ne_nil _ _) _

theorem requiredField_congr {fields fields' : GoMap Bytes Bytes}
    (h : ∀ k, fields'.load k = fields.load k) (key : Bytes) :
    requiredField fields' key = requiredField fields key := by
  unfold requiredField
  rw [h]

theorem parseControl_stanza {data : Bytes} {fields : GoMap Bytes Bytes}
    (h : parseControl data = some fields) {keys : List Bytes}
    (hkeys : ∀ key, key ∈ keys ↔ fields.has key = true) (hnodup : keys.Nodup) :
    keys ≠ [] ∧ ∃ fields', parseControl ([newline].intercalate (packageLines fields keys)) =
      some fields' ∧ ∀ k, fields'.load k = fields.load k := by
  have hok := parseControl_ok h
  have hlines := packageLines_ok hok fun key hkey => (hkeys key).mp hkey
  have hrequired : (["Package", "Version", "Architecture"].all
      fun key => requiredField fields (text key)) = true := by
    unfold parseControl at h
    split_ifs at h
    split at h
    · cases h
    · split_ifs at h with hall
      cases h
      exact hall
  have hne : keys ≠ [] := by
    rintro rfl
    have hpackage := List.all_eq_true.mp hrequired "Package" (List.mem_cons_self ..)
    have habsent : fields.load (text "Package") = none := by
      rw [← GoMap.has_eq_false, Bool.eq_false_iff]
      exact fun hhas => absurd ((hkeys _).mpr hhas) List.not_mem_nil
    unfold requiredField at hpackage
    rw [habsent] at hpackage
    cases hpackage
  refine ⟨hne, ?_⟩
  obtain ⟨st, hparse, hload⟩ := @parseLines_package fields hok keys
    (fun key hkey => (hkeys key).mp hkey) hnodup ⟨∅, [], []⟩ fun _ _ => List.not_mem_nil
  have hsame : ∀ k, st.fields.load k = fields.load k := by
    intro k
    rw [hload k]
    split_ifs with hk
    · rfl
    · symm
      rw [GoMap.load_empty, ← GoMap.has_eq_false, Bool.eq_false_iff]
      exact fun hhas => hk ((hkeys k).mpr hhas)
  have hplain : ([newline].intercalate (packageLines fields keys)).any
      (fun c => c == 0 || c == carriageReturn) = false := by
    rw [List.any_eq_false]
    intro c hc
    rw [Bool.or_eq_true, beq_iff_eq, beq_iff_eq, not_or]
    rcases Nested.mem_labels hc with rfl | ⟨line, hline, hc⟩
    · decide
    · exact (hlines line hline).2.2 c hc
  refine ⟨st.fields, ?_, hsame⟩
  unfold parseControl
  rw [hplain, if_neg Bool.false_ne_true,
    Lines.rdropWhile_intercalate (fun l hl => (hlines l hl).1) fun l hl => (hlines l hl).2.1,
    List.splitOn_intercalate newline (fun l hl => (hlines l hl).1) (packageLines_ne hne), hparse]
  dsimp only
  simp only [requiredField_congr hsame]
  rw [if_pos hrequired]

theorem writeFields_spec {fields : GoMap Bytes Bytes} {keys : List Bytes} {output output' : Bytes}
    (h : writeFields fields keys output = some output') :
    output' = output ++ Lines.join (packageLines fields keys) := by
  induction keys generalizing output with
  | nil =>
    cases h
    exact (List.append_nil _).symm
  | cons key keys ih =>
    unfold writeFields at h
    dsimp only at h
    split_ifs at h
    have hfield : fieldText key ((fields.load key).getD []) =
        Lines.join (fieldLines key ((fields.load key).getD [])) :=
      (Lines.join_splitOn _).symm
    rw [ih h, hfield, List.append_assoc, ← Lines.join_append]
    rfl

theorem sortedKeys_perm (o : RangeOrder Bytes Bytes) (fields : GoMap Bytes Bytes) :
    (sortedKeys o fields).Perm (o.keys fields) := List.perm_insertionSort _ _

theorem mem_sortedKeys (o : RangeOrder Bytes Bytes) (fields : GoMap Bytes Bytes) (key : Bytes) :
    key ∈ sortedKeys o fields ↔ fields.has key = true := by
  rw [(sortedKeys_perm o fields).mem_iff, o.mem_keys]

theorem writePackages_spec {o : RangeOrder Bytes Bytes} {suite component architecture : Bytes}
    {packages : List (Option Package)} {output output' : Bytes}
    (h : writePackages o suite component architecture packages output = some output') :
    output' = output ++ Lines.join
      (((packages.filterMap id).filter (selected suite component architecture)).flatMap
        fun pkg => packageLines pkg.fields (sortedKeys o pkg.fields) ++ [[]]) := by
  induction packages generalizing output with
  | nil =>
    cases h
    exact (List.append_nil _).symm
  | cons pkg packages ih =>
    cases pkg with
    | none => cases h
    | some pkg =>
      unfold writePackages at h
      rw [List.filterMap_cons, id, List.filter_cons]
      split_ifs at h with hselected
      · rw [if_neg (by rw [hselected]; exact nofun)]
        exact ih h
      · rw [Bool.not_eq_false] at hselected
        split at h
        · cases h
        · rename_i output₁ hfields
          rw [if_pos hselected, ih h, writeFields_spec hfields, List.flatMap_cons,
            Lines.join_append, Lines.join_append, List.append_assoc, List.append_assoc,
            List.append_assoc]
          rfl

theorem stanzas_join {groups : List (List Bytes)} (hgroups : ∀ group ∈ groups, group ≠ [])
    (hlines : ∀ group ∈ groups, ∀ line ∈ group, newline ∉ line ∧ line ≠ []) :
    stanzas (Lines.join (groups.flatMap fun group => group ++ [[]])) =
      groups.map [newline].intercalate := by
  have hsplit : ∀ groups : List (List Bytes), (∀ group ∈ groups, [] ∉ group) →
      ((groups.flatMap fun group => group ++ [[]]) ++ [[]]).splitOn [] =
        groups ++ [[], []] := by
    intro groups hempty
    induction groups with
    | nil => rfl
    | cons group groups ih =>
      rw [List.flatMap_cons, List.append_assoc, List.append_assoc, List.singleton_append,
        List.splitOn_append_cons_self_of_not_mem (hempty group (List.mem_cons_self ..)),
        ih fun g hg => hempty g (List.mem_cons_of_mem group hg)]
      rfl
  unfold stanzas
  rw [Lines.splitOn_join, hsplit]
  · rw [List.filter_append, List.filter_eq_self.mpr fun g hg => decide_eq_true (hgroups g hg)]
    simp
  · exact fun g hg hmem => (hlines g hg [] hmem).2 rfl
  · intro line hline
    obtain ⟨group, hgroup, hmem⟩ := List.mem_flatMap.mp hline
    rcases List.mem_append.mp hmem with hmem | hmem
    · exact (hlines group hgroup line hmem).1
    · rw [List.mem_singleton.mp hmem]
      exact List.not_mem_nil

/-- The index of packages that were read from control files has one stanza for each selected
package, in order, and each stanza is a control file with the fields of its package. -/
theorem packageIndex_stanzas {o : RangeOrder Bytes Bytes} {packages : List (Option Package)}
    {suite component architecture index : Bytes}
    (hparsed : ∀ pkg, some pkg ∈ packages → ∃ data, parseControl data = some pkg.fields)
    (h : packageIndex o packages suite component architecture = some index) :
    List.Forall₂ (fun stanza pkg => ∃ fields, parseControl stanza = some fields ∧
      ∀ key, fields.load key = pkg.fields.load key) (stanzas index)
      ((packages.filterMap id).filter (selected suite component architecture)) := by
  generalize hpackages : (packages.filterMap id).filter (selected suite component architecture) =
    chosen
  have hchosen : ∀ pkg ∈ chosen, sortedKeys o pkg.fields ≠ [] ∧ FieldsOk pkg.fields ∧
      ∃ fields', parseControl ([newline].intercalate
        (packageLines pkg.fields (sortedKeys o pkg.fields))) = some fields' ∧
          ∀ k, fields'.load k = pkg.fields.load k := by
    intro pkg hpkg
    rw [← hpackages] at hpkg
    obtain ⟨hmem, -⟩ := List.mem_filter.mp hpkg
    obtain ⟨pkg', hpkg', rfl⟩ := List.mem_filterMap.mp hmem
    obtain ⟨data, hdata⟩ := hparsed pkg hpkg'
    have hnodup : (sortedKeys o pkg.fields).Nodup :=
      (sortedKeys_perm o pkg.fields).nodup_iff.mpr (o.nodup _)
    obtain ⟨hne, hstanza⟩ := parseControl_stanza hdata (mem_sortedKeys o pkg.fields) hnodup
    exact ⟨hne, parseControl_ok hdata, hstanza⟩
  have hindex : index = Lines.join ((chosen.map fun pkg =>
      packageLines pkg.fields (sortedKeys o pkg.fields)).flatMap fun group => group ++ [[]]) := by
    unfold packageIndex at h
    split_ifs at h
    rw [writePackages_spec h, hpackages, List.nil_append, List.flatMap_map]
  rw [hindex, stanzas_join, List.map_map, List.forall₂_map_left_iff, List.forall₂_same]
  · exact fun pkg hpkg => (hchosen pkg hpkg).2.2
  · intro group hgroup
    obtain ⟨pkg, hpkg, rfl⟩ := List.mem_map.mp hgroup
    exact packageLines_ne (hchosen pkg hpkg).1
  · intro group hgroup line hline
    obtain ⟨pkg, hpkg, rfl⟩ := List.mem_map.mp hgroup
    have hline' := packageLines_ok (hchosen pkg hpkg).2.1
      (fun key hkey => (mem_sortedKeys o pkg.fields key).mp hkey) line hline
    exact ⟨hline'.1, hline'.2.1⟩

def sampleControl : Bytes :=
  text "package: a\nVersion: 1\nArchitecture: all\nmd5sum:\n x:y\n \n"

def samplePackage : Package :=
  ⟨text "pool/b/a.deb", (parseControl sampleControl).getD ∅⟩

def sampleIndex : Bytes :=
  text "Architecture: all\nMD5sum: \n x:y\n \nPackage: a\nVersion: 1\n\n"

theorem packageIndex_sample :
    packageIndex RangeOrder.entries [some samplePackage] [] (text "b") [] = some sampleIndex ∧
      List.Forall₂ (fun stanza pkg => ∃ fields, parseControl stanza = some fields ∧
        ∀ key, fields.load key = pkg.fields.load key) (stanzas sampleIndex)
        (([some samplePackage].filterMap id).filter (selected [] (text "b") [])) := by
  have hindex : packageIndex RangeOrder.entries [some samplePackage] [] (text "b") [] =
      some sampleIndex := by decide +kernel
  refine ⟨hindex, packageIndex_stanzas (fun pkg hpkg => ⟨sampleControl, ?_⟩) hindex⟩
  obtain rfl := Option.some.inj (List.mem_singleton.mp hpkg)
  obtain ⟨fields, hread⟩ := Option.isSome_iff_exists.mp
    (show (parseControl sampleControl).isSome = true by decide +kernel)
  unfold samplePackage
  rw [hread, Option.getD_some]

end RenoP.Native.Apt
