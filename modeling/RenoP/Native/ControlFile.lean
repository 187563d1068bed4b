import RenoP.Lib.GoMap
import RenoP.Lib.Lines
import RenoP.Lib.SlashPath
import RenoP.Lib.TrimSpace

/-!
# Control files of Debian packages

`parseControl` of `internal/service/nativepkg/apt/package.go` on the bytes of a control file. Every
failure is `ErrInvalidPackage`.
-/

namespace RenoP.Native.Apt

abbrev Bytes := List UInt8

open Lines (newline carriageReturn)
open TrimSpace (trimSpace)

def text (s : String) : Bytes := s.toList.map fun c => c.val.toUInt8

def colon : UInt8 := 0x3A

def upperCase (c : UInt8) : UInt8 := if 0x61 ≤ c ∧ c ≤ 0x7A then c - 0x20 else c

def lowerCase (c : UInt8) : UInt8 := if 0x41 ≤ c ∧ c ≤ 0x5A then c + 0x20 else c

/-- `strings.ToLower` of an ASCII key; every other key is invalid whatever its lower case. -/
def lower (key : Bytes) : Bytes := key.map lowerCase

def keyByte (c : UInt8) : Bool :=
  (0x41 ≤ c && c ≤ 0x5A) || (0x61 ≤ c && c ≤ 0x7A) || (0x30 ≤ c && c ≤ 0x39) || c == 0x2D

/-- `CanonicalMIMEHeaderKey` of such a key: a letter is upper case where the key or a part of it
begins. -/
def canonicalFrom : Bool → Bytes → Bytes
  | _, [] => []
  | upper, c :: key =>
    (if upper then upperCase c else lowerCase c) :: canonicalFrom (c == 0x2D) key

def fieldName (key : Bytes) : Bytes :=
  let key := canonicalFrom true key
  if lower key = text "md5sum" then text "MD5sum"
  else if lower key = text "sha1" then text "SHA1"
  else if lower key = text "sha256" then text "SHA256"
  else if lower key = text "sha512" then text "SHA512"
  else key

def cutColon (line : Bytes) : Option (Bytes × Bytes) :=
  match line.dropWhile (· != colon) with
  | [] => none
  | _ :: value => some (line.takeWhile (· != colon), value)

def blankByte (c : UInt8) : Bool := c == 0x20 || c == 0x09

structure ControlState where
  fields : GoMap Bytes Bytes
  seen : List Bytes
  last : Bytes

def parseLine (st : ControlState) : Bytes → Option ControlState
  | [] => none
  | c :: line =>
    if blankByte c then
      if st.last = [] then none
      else
        let value := (st.fields.load st.last).getD [] ++ newline :: c :: line
        some { st with fields := st.fields.store st.last value }
    else
      match cutColon (c :: line) with
      | none => none
      | some (key, value) =>
        if key = [] ∨ st.seen.contains (lower key) then none
        else if key.all keyByte = false then none
        else some ⟨st.fields.store (fieldName key) (trimSpace value), lower key :: st.seen,
          fieldName key⟩

def parseLines : ControlState → List Bytes → Option ControlState
  | st, [] => some st
  | st, line :: lines => (parseLine st line).bind fun st => parseLines st lines

/-- The checks of the fields `Package`, `Version` and `Architecture`. -/
def requiredField (fields : GoMap Bytes Bytes) (key : Bytes) : Bool :=
  let value := (fields.load key).getD []
  value != [] && decide (value.length ≤ 1024) && value.all fun c => !(text " \t\n/\\").contains c

def parseControl (data : Bytes) : Option (GoMap Bytes Bytes) :=
  if data.any fun c => c == 0 || c == carriageReturn then none
  else
    match parseLines ⟨∅, [], []⟩ ((data.rdropWhile (· == newline)).splitOn newline) with
    | none => none
    | some st =>
      if ["Package", "Version", "Architecture"].all fun key => requiredField st.fields (text key)
      then some st.fields else none

theorem forall_byte {p : UInt8 → Bool} (h : ∀ n < 256, p (UInt8.ofNat n) = true) (c : UInt8) :
    p c = true := by
  rw [← UInt8.ofNat_toNat (x := c)]
  exact h c.toNat c.toNat_lt

theorem case_spec (c : UInt8) :
    upperCase (lowerCase c) = upperCase c ∧ lowerCase (upperCase c) = lowerCase c ∧
      lowerCase (lowerCase c) = lowerCase c ∧ (lowerCase c == 0x2D) = (c == 0x2D) ∧
      keyByte (upperCase c) = keyByte c ∧ keyByte (lowerCase c) = keyByte c := by
  have hall := @forall_byte (fun c => upperCase (lowerCase c) == upperCase c &&
    lowerCase (upperCase c) == lowerCase c && lowerCase (lowerCase c) == lowerCase c &&
    (lowerCase c == 0x2D) == (c == 0x2D) && keyByte (upperCase c) == keyByte c &&
    keyByte (lowerCase c) == keyByte c) (by decide +kernel) c
  simpa only [Bool.and_eq_true, beq_iff_eq, and_assoc] using hall

theorem canonicalFrom_lower (upper : Bool) (key : Bytes) :
    canonicalFrom upper (lower key) = canonicalFrom upper key := by
  induction key generalizing upper with
  | nil => rfl
  | cons c key ih =>
    obtain ⟨hupper, -, hlower, hdash, -⟩ := case_spec c
    unfold lower at ih ⊢
    rw [List.map_cons, canonicalFrom, canonicalFrom, hdash, ih, hupper, hlower]

theorem lower_canonicalFrom (upper : Bool) (key : Bytes) :
    lower (canonicalFrom upper key) = lower key := by
  induction key generalizing upper with
  | nil => rfl
  | cons c key ih =>
    obtain ⟨-, hupper, hlower, -⟩ := case_spec c
    unfold lower at ih ⊢
    rw [canonicalFrom, List.map_cons, List.map_cons, ih]
    congr 1
    split_ifs
    · exact hupper
    · exact hlower

theorem fieldName_lower (key : Bytes) : fieldName (lower key) = fieldName key := by
  unfold fieldName
  rw [canonicalFrom_lower]

theorem lower_fieldName (key : Bytes) : lower (fieldName key) = lower key := by
  have hcanonical := lower_canonicalFrom true key
  unfold fieldName
  dsimp only
  split_ifs with hmd5 hsha1 hsha256 hsha512
  · rw [← hcanonical, hmd5]
    decide
  · rw [← hcanonical, hsha1]
    decide
  · rw [← hcanonical, hsha256]
    decide
  · rw [← hcanonical, hsha512]
    decide
  · exact hcanonical

theorem fieldName_fieldName (key : Bytes) : fieldName (fieldName key) = fieldName key := by
  rw [← fieldName_lower (fieldName key), lower_fieldName, fieldName_lower]

theorem all_lower (key : Bytes) : (lower key).all keyByte = key.all keyByte := by
  unfold lower
  rw [List.all_map]
  congr 1
  funext c
  exact (case_spec c).2.2.2.2.2

theorem all_fieldName (key : Bytes) : (fieldName key).all keyByte = key.all keyByte := by
  rw [← all_lower, lower_fieldName, all_lower]

theorem keyByte_spec {c : UInt8} (h : keyByte c = true) :
    blankByte c = false ∧ c ≠ colon ∧ c ≠ newline := by
  have hall := @forall_byte (fun c => !keyByte c || !blankByte c && c != colon && c != newline)
    (by decide +kernel) c
  rw [h] at hall
  simpa only [Bool.not_true, Bool.false_or, Bool.and_eq_true, Bool.not_eq_true', bne_iff_ne,
    and_assoc] using hall

theorem keyByte_plain {c : UInt8} (h : keyByte c = true) : c ≠ 0 ∧ c ≠ carriageReturn := by
  have hall := @forall_byte (fun c => !keyByte c || c != 0 && c != carriageReturn)
    (by decide +kernel) c
  rw [h] at hall
  simpa only [Bool.not_true, Bool.false_or, Bool.and_eq_true, bne_iff_ne] using hall

structure NameOk (key : Bytes) : Prop where
  ne_nil : key ≠ []
  bytes : key.all keyByte = true
  canonical : fieldName key = key

def valueOf (first : Bytes) (more : List Bytes) : Bytes :=
  first ++ more.flatMap fun line => newline :: line

structure ValueOk (first : Bytes) (more : List Bytes) : Prop where
  trimmed : trimSpace first = first
  line : newline ∉ first
  more_lines : ∀ line ∈ more, newline ∉ line ∧ ∃ c rest, line = c :: rest ∧ blankByte c = true

def plain (s : Bytes) : Prop := ∀ c ∈ s, c ≠ 0 ∧ c ≠ carriageReturn

theorem nameOk_fieldName {key : Bytes} (hne : key ≠ []) (hbytes : key.all keyByte = true) :
    NameOk (fieldName key) := by
  refine ⟨?_, (all_fieldName key).trans hbytes, fieldName_fieldName key⟩
  intro hnil
  have hlength := congrArg List.length (lower_fieldName key)
  unfold lower at hlength
  rw [List.length_map, List.length_map, hnil] at hlength
  exact hne (List.length_eq_zero_iff.mp hlength.symm)

theorem NameOk.inj {key key' : Bytes} (h : NameOk key) (h' : NameOk key')
    (hlower : lower key = lower key') : key = key' := by
  rw [← h.canonical, ← h'.canonical, ← fieldName_lower key, ← fieldName_lower key', hlower]

def FieldsOk (fields : GoMap Bytes Bytes) : Prop :=
  ∀ key value, fields.load key = some value → NameOk key ∧ plain value ∧
    ∃ first more, value = valueOf first more ∧ ValueOk first more

theorem valueOf_append (first line : Bytes) (more : List Bytes) :
    valueOf first (more ++ [line]) = valueOf first more ++ newline :: line := by
  unfold valueOf
  rw [List.flatMap_append, List.append_assoc]
  simp

theorem cutColon_spec {line key value : Bytes} (h : cutColon line = some (key, value)) :
    line = key ++ colon :: value := by
  have hsplit : line.takeWhile (· != colon) ++ line.dropWhile (· != colon) = line :=
    List.takeWhile_append_dropWhile
  unfold cutColon at h
  cases hdrop : line.dropWhile (· != colon) with
  | nil =>
    rw [hdrop] at h
    cases h
  | cons c rest =>
    have hcolon : c = colon := by
      have hhead := List.head?_dropWhile_not (· != colon) line
      rw [hdrop] at hhead
      simpa using hhead
    rw [hdrop, hcolon] at hsplit
    rw [hdrop] at h
    obtain ⟨rfl, rfl⟩ := Prod.mk.inj (Option.some.inj h)
    exact hsplit.symm

theorem FieldsOk.parseLine {st st' : ControlState} {line : Bytes} (h : FieldsOk st.fields)
    (hlast : st.last = [] ∨ ∃ value, st.fields.load st.last = some value) (hplain : plain line)
    (hline : newline ∉ line) (hparse : parseLine st line = some st') :
    FieldsOk st'.fields ∧ (st'.last = [] ∨ ∃ value, st'.fields.load st'.last = some value) := by
  cases line with
  | nil => cases hparse
  | cons c line =>
    unfold Apt.parseLine at hparse
    dsimp only at hparse
    by_cases hblank : blankByte c = true
    · rw [if_pos hblank] at hparse
      split_ifs at hparse with hnone
      cases hparse
      obtain ⟨value, hload⟩ := hlast.resolve_left hnone
      obtain ⟨hname, hvalue, first, more, rfl, hok⟩ := h _ _ hload
      rw [hload, Option.getD_some, ← valueOf_append]
      refine ⟨?_, Or.inr ⟨_, GoMap.load_store_self _ _ _⟩⟩
      intro key' value' hload'
      rw [GoMap.load_store] at hload'
      split_ifs at hload' with hkey
      · cases hload'
        refine ⟨hkey ▸ hname, ?_, first, _, rfl, hok.trimmed, hok.line, ?_⟩
        · intro d hd
          rw [valueOf_append] at hd
          rcases List.mem_append.mp hd with hd | hd
          · exact hvalue d hd
          · rcases List.mem_cons.mp hd with rfl | hd
            · decide
            · exact hplain d hd
        · intro l hl
          rcases List.mem_append.mp hl with hl | hl
          · exact hok.more_lines l hl
          · rw [List.mem_singleton.mp hl]
            exact ⟨hline, c, line, rfl, hblank⟩
      · exact h key' value' hload'
    · rw [if_neg hblank] at hparse
      split at hparse
      · cases hparse
      · rename_i key value hcut
        have hsplit := cutColon_spec hcut
        split_ifs at hparse with hseen hbytes
        cases hparse
        rw [not_or] at hseen
        have hmem : ∀ d ∈ trimSpace value, d ∈ c :: line := by
          intro d hd
          rw [hsplit]
          exact List.mem_append_right _ (List.mem_cons_of_mem _ (TrimSpace.mem_trimSpace hd))
        refine ⟨?_, Or.inr ⟨_, GoMap.load_store_self _ _ _⟩⟩
        intro key' value' hload'
        rw [GoMap.load_store] at hload'
        split_ifs at hload' with hkey
        · cases hload'
          rw [hkey]
          refine ⟨nameOk_fieldName hseen.1 (Bool.not_eq_false _ ▸ hbytes), ?_, trimSpace value, [],
            (List.append_nil _).symm, TrimSpace.trimSpace_idem value, ?_,
            fun l hl => absurd hl List.not_mem_nil⟩
          · exact fun d hd => hplain d (hmem d hd)
          · exact fun hd => hline (hmem newline hd)
        · exact h key' value' hload'

def StateOk (st : ControlState) : Prop :=
  FieldsOk st.fields ∧ (st.last = [] ∨ ∃ value, st.fields.load st.last = some value)

theorem parseLines_ok {lines : List Bytes} {st st' : ControlState} (h : StateOk st)
    (hlines : ∀ line ∈ lines, plain line ∧ newline ∉ line) (hparse : parseLines st lines = some st') :
    StateOk st' := by
  induction lines generalizing st with
  | nil =>
    cases hparse
    exact h
  | cons line lines ih =>
    unfold parseLines at hparse
    obtain ⟨st₁, hline, hrest⟩ := Option.bind_eq_some_iff.mp hparse
    obtain ⟨hplain, hone⟩ := hlines line (List.mem_cons_self ..)
    exact ih (h.1.parseLine h.2 hplain hone hline)
      (fun l hl => hlines l (List.mem_cons_of_mem line hl)) hrest

theorem mem_of_splitOn {data line : Bytes} {c : UInt8} (hline : line ∈ data.splitOn newline)
    (hc : c ∈ line) : c ∈ data := by
  rw [← @List.intercalate_splitOn _ data _ _ newline]
  unfold List.intercalate
  rw [List.mem_flatten]
  refine ⟨line, ?_, hc⟩
  generalize data.splitOn newline = lines at hline
  induction lines with
  | nil => cases hline
  | cons l lines ih =>
    cases lines with
    | nil => exact hline
    | cons l' lines =>
      rw [List.intersperse_cons_cons]
      rcases List.mem_cons.mp hline with rfl | hrest
      · exact List.mem_cons_self ..
      · exact List.mem_cons_of_mem _ (List.mem_cons_of_mem _ (ih hrest))

theorem parseControl_ok {data : Bytes} {fields : GoMap Bytes Bytes}
    (h : parseControl data = some fields) : FieldsOk fields := by
  unfold parseControl at h
  split_ifs at h with hplain
  split at h
  · cases h
  · rename_i st hst
    split_ifs at h
    cases h
    have hbytes : plain data := by
      intro c hc
      rw [Bool.not_eq_true, List.any_eq_false] at hplain
      have hbyte := hplain c hc
      simpa only [Bool.or_eq_true, beq_iff_eq, not_or] using hbyte
    have hstart : StateOk ⟨∅, [], []⟩ := by
      refine ⟨fun key value hload => ?_, Or.inl rfl⟩
      cases hload
    apply (parseLines_ok hstart _ hst).1
    intro line hline
    refine ⟨fun c hc => hbytes c ?_, SlashPath.splitOn_noSep newline _ line hline⟩
    exact (List.rdropWhile_prefix _ _).subset (mem_of_splitOn hline hc)

end RenoP.Native.Apt
