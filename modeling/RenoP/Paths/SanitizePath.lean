import RenoP.Lib.UTF8
import RenoP.Lib.SlashPath

/-!
# Request paths

`SanitizePath` of `internal/utils/path.go` on the bytes of a path: split at the slashes, each part
percent-decoded and checked. `strings.ToLower` is the ASCII one: no other rune is lowered to a
letter of a device name.
-/

namespace RenoP.Paths

abbrev Bytes := List UInt8

def ascii (text : List Char) : Bytes := text.map fun c => c.val.toUInt8

def slash : UInt8 := 0x2F
def backslash : UInt8 := 0x5C
def dot : UInt8 := 0x2E
def space : UInt8 := 0x20
def percent : UInt8 := 0x25

def ishex (c : UInt8) : Bool :=
  (0x30 ≤ c && c ≤ 0x39) || (0x61 ≤ c && c ≤ 0x66) || (0x41 ≤ c && c ≤ 0x46)

def unhex (c : UInt8) : UInt8 :=
  if 0x30 ≤ c ∧ c ≤ 0x39 then c - 0x30
  else if 0x61 ≤ c ∧ c ≤ 0x66 then c - 0x61 + 10
  else c - 0x41 + 10

def pathUnescape : Bytes → Option Bytes
  | [] => some []
  | c :: s =>
    if c = percent then
      match s with
      | a :: b :: rest =>
        if ishex a && ishex b then (pathUnescape rest).map ((unhex a * 16 + unhex b) :: ·) else none
      | _ => none
    else (pathUnescape s).map (c :: ·)

def reservedDeviceNames : List Bytes :=
  [['c', 'o', 'n'], ['p', 'r', 'n'], ['a', 'u', 'x'], ['n', 'u', 'l'],
   ['c', 'o', 'm', '1'], ['c', 'o', 'm', '2'], ['c', 'o', 'm', '3'], ['c', 'o', 'm', '4'],
   ['c', 'o', 'm', '5'], ['c', 'o', 'm', '6'], ['c', 'o', 'm', '7'], ['c', 'o', 'm', '8'],
   ['c', 'o', 'm', '9'],
   ['l', 'p', 't', '1'], ['l', 'p', 't', '2'], ['l', 'p', 't', '3'], ['l', 'p', 't', '4'],
   ['l', 'p', 't', '5'], ['l', 'p', 't', '6'], ['l', 'p', 't', '7'], ['l', 'p', 't', '8'],
   ['l', 'p', 't', '9']].map ascii

def toLower (c : UInt8) : UInt8 := if 0x41 ≤ c ∧ c ≤ 0x5A then c + 0x20 else c

def isReservedDeviceName (part : Bytes) : Bool :=
  reservedDeviceNames.contains ((part.takeWhile (· != dot)).map toLower)

def isControl (r : Char) : Bool := r.toNat < 0x20 || (0x7F ≤ r.toNat && r.toNat < 0xA0)

def forbiddenRunes : List Char := ['\\', ':', '%', '*', '?', '#', '"', '<', '>', '|']

/-- One turn of the loop of `SanitizePath`, which refuses the path or writes what it returns; an
empty text is not written. -/
def sanitizePart (part : Bytes) : Option Bytes :=
  if part = [] ∨ part = [dot] then some []
  else match pathUnescape part with
  | none => none
  | some decoded =>
    match UTF8.decode decoded with
    | none => none
    | some runes =>
      if decoded = [] ∨ decoded = [dot] then some []
      else if decoded = [dot, dot] ∨ slash ∈ decoded ∨ backslash ∈ decoded ∨
          decoded.getLast? = some space ∨ decoded.getLast? = some dot ∨
          isReservedDeviceName decoded then none
      else if runes.any fun r => isControl r || forbiddenRunes.contains r then none
      else some decoded

def sanitizeLoop : List Bytes → Bytes → Option Bytes
  | [], builder => some builder
  | part :: parts, builder =>
    match sanitizePart part with
    | none => none
    | some [] => sanitizeLoop parts builder
    | some (c :: cs) =>
      sanitizeLoop parts (if builder = [] then c :: cs else builder ++ slash :: c :: cs)

def sanitizePath (path : Bytes) : Option Bytes :=
  if path = [] then some []
  else match UTF8.decode path with
  | none => none
  | some _ => sanitizeLoop (path.splitOn slash) []

structure SafeSegment (seg : Bytes) : Prop where
  nonempty : seg ≠ []
  not_dot : seg ≠ [dot]
  not_dotDot : seg ≠ [dot, dot]
  no_slash : slash ∉ seg
  no_backslash : backslash ∉ seg
  no_percent : percent ∉ seg
  runes : ∃ runes, UTF8.decode seg = some runes ∧
    ∀ r ∈ runes, isControl r = false ∧ r ∉ forbiddenRunes
  last : seg.getLast? ≠ some space ∧ seg.getLast? ≠ some dot
  not_reserved : isReservedDeviceName seg = false

theorem pathUnescape_eq {s : Bytes} (h : percent ∉ s) : pathUnescape s = some s := by
  induction s with
  | nil => rfl
  | cons c s ih =>
    have hc : c ≠ percent := fun he => h (he ▸ List.mem_cons_self ..)
    unfold pathUnescape
    rw [if_neg hc, ih (fun hs => h (List.mem_cons_of_mem c hs))]
    rfl

theorem sanitizePart_spec {part out : Bytes} (h : sanitizePart part = some out) (hne : out ≠ []) :
    SafeSegment out := by
  unfold sanitizePart at h
  split_ifs at h with hskip
  · cases h
    exact absurd rfl hne
  cases hunescape : pathUnescape part with
  | none =>
    rw [hunescape] at h
    cases h
  | some decoded =>
    rw [hunescape] at h
    dsimp only at h
    cases hrunes : UTF8.decode decoded with
    | none =>
      rw [hrunes] at h
      cases h
    | some runes =>
      rw [hrunes] at h
      dsimp only at h
      split_ifs at h with hempty hbad hforbidden
      · cases h
        exact absurd rfl hne
      · cases h
        simp only [not_or, Bool.not_eq_true] at hempty hbad
        simp only [List.any_eq_true, not_exists, not_and, Bool.not_eq_true, Bool.or_eq_false_iff,
          List.contains_eq_mem, decide_eq_false_iff_not] at hforbidden
        refine ⟨hempty.1, hempty.2, hbad.1, hbad.2.1, hbad.2.2.1, ?_, ⟨runes, hrunes, hforbidden⟩,
          ⟨hbad.2.2.2.1, hbad.2.2.2.2.1⟩, hbad.2.2.2.2.2⟩
        intro hmem
        have hrune := UTF8.decode_ascii hrunes hmem (by decide)
        exact (hforbidden _ hrune).2 (by decide)

theorem sanitizePart_safe {seg : Bytes} (h : SafeSegment seg) : sanitizePart seg = some seg := by
  obtain ⟨runes, hrunes, hall⟩ := h.runes
  have hempty : ¬(seg = [] ∨ seg = [dot]) := not_or.mpr ⟨h.nonempty, h.not_dot⟩
  have hbad : ¬(seg = [dot, dot] ∨ slash ∈ seg ∨ backslash ∈ seg ∨ seg.getLast? = some space ∨
      seg.getLast? = some dot ∨ isReservedDeviceName seg = true) := by
    simp only [not_or, Bool.not_eq_true]
    exact ⟨h.not_dotDot, h.no_slash, h.no_backslash, h.last.1, h.last.2, h.not_reserved⟩
  have hforbidden : ¬(runes.any fun r => isControl r || forbiddenRunes.contains r) = true := by
    simp only [List.any_eq_true, not_exists, not_and, Bool.not_eq_true, Bool.or_eq_false_iff,
      List.contains_eq_mem, decide_eq_false_iff_not]
    exact hall
  unfold sanitizePart
  rw [if_neg hempty, pathUnescape_eq h.no_percent]
  dsimp only
  rw [hrunes]
  dsimp only
  rw [if_neg hempty, if_neg hbad, if_neg hforbidden]

def joined (segs : List Bytes) : Bytes := [slash].intercalate segs

theorem joined_concat {segs : List Bytes} {seg : Bytes} (h : ∀ s ∈ segs, SafeSegment s) :
    joined (segs ++ [seg]) = if joined segs = [] then seg else joined segs ++ slash :: seg := by
  cases segs with
  | nil => simp [joined]
  | cons s segs =>
    have hs := (h s (List.mem_cons_self ..)).nonempty
    have hne : joined (s :: segs) ≠ [] := by
      cases segs with
      | nil => simpa [joined] using hs
      | cons t segs => simp [joined]
    rw [if_neg hne]
    exact SlashPath.intercalate_concat _ _ (by simp)

theorem sanitizeLoop_spec {parts segs : List Bytes} {out : Bytes}
    (hsafe : ∀ s ∈ segs, SafeSegment s) (h : sanitizeLoop parts (joined segs) = some out) :
    ∃ more, out = joined more ∧ ∀ s ∈ more, SafeSegment s := by
  induction parts generalizing segs with
  | nil =>
    cases h
    exact ⟨segs, rfl, hsafe⟩
  | cons part parts ih =>
    unfold sanitizeLoop at h
    cases hpart : sanitizePart part with
    | none =>
      rw [hpart] at h
      cases h
    | some seg =>
      rw [hpart] at h
      cases seg with
      | nil => exact ih hsafe h
      | cons c cs =>
        have hseg := sanitizePart_spec hpart (List.cons_ne_nil c cs)
        dsimp only at h
        rw [← joined_concat hsafe] at h
        refine ih ?_ h
        intro s hs
        rcases List.mem_append.mp hs with hs | hs
        · exact hsafe s hs
        · rw [List.mem_singleton.mp hs]
          exact hseg

theorem sanitizeLoop_safe {segs before : List Bytes} (hbefore : ∀ s ∈ before, SafeSegment s)
    (hsegs : ∀ s ∈ segs, SafeSegment s) :
    sanitizeLoop segs (joined before) = some (joined (before ++ segs)) := by
  induction segs generalizing before with
  | nil => rw [List.append_nil, sanitizeLoop]
  | cons seg segs ih =>
    have hseg := hsegs seg (List.mem_cons_self ..)
    have hmore : ∀ s ∈ before ++ [seg], SafeSegment s := by
      intro s hs
      rcases List.mem_append.mp hs with hs | hs
      · exact hbefore s hs
      · rw [List.mem_singleton.mp hs]
        exact hseg
    obtain ⟨c, cs, hcons⟩ := List.exists_cons_of_ne_nil hseg.nonempty
    unfold sanitizeLoop
    rw [sanitizePart_safe hseg, hcons]
    dsimp only
    rw [← hcons, ← joined_concat hbefore,
      ih hmore (fun s hs => hsegs s (List.mem_cons_of_mem seg hs)), List.append_assoc]
    rfl

theorem decode_joined {segs : List Bytes} (h : ∀ s ∈ segs, SafeSegment s) :
    ∃ runes, UTF8.decode (joined segs) = some runes := by
  induction segs with
  | nil => exact ⟨[], rfl⟩
  | cons seg segs ih =>
    obtain ⟨head, hhead, -⟩ := (h seg (List.mem_cons_self ..)).runes
    obtain ⟨tail, htail⟩ := ih fun s hs => h s (List.mem_cons_of_mem seg hs)
    cases segs with
    | nil => exact ⟨head, by rw [joined, List.intercalate_singleton, hhead]⟩
    | cons next segs =>
      have hslash := UTF8.decode_singleton (b := slash) (by decide)
      refine ⟨head ++ [Char.ofNat slash.toNat] ++ tail, ?_⟩
      rw [joined, List.intercalate_cons_cons]
      exact UTF8.decode_append (UTF8.decode_append hhead hslash) htail

theorem sanitizePath_joined {segs : List Bytes} (h : ∀ s ∈ segs, SafeSegment s) :
    sanitizePath (joined segs) = some (joined segs) := by
  unfold sanitizePath
  split_ifs with hempty
  · rw [hempty]
  · obtain ⟨runes, hrunes⟩ := decode_joined h
    have hne : segs ≠ [] := by
      rintro rfl
      exact hempty rfl
    have hsplit : (joined segs).splitOn slash = segs :=
      List.splitOn_intercalate slash (fun s hs => (h s hs).no_slash) hne
    rw [hrunes]
    dsimp only
    rw [hsplit]
    exact @sanitizeLoop_safe segs [] (by simp) h

theorem sanitizePath_segments {p q : Bytes} (h : sanitizePath p = some q) :
    ∃ segs, q = joined segs ∧ ∀ s ∈ segs, SafeSegment s := by
  unfold sanitizePath at h
  split_ifs at h with hempty
  · cases h
    exact ⟨[], rfl, by simp⟩
  · cases hrunes : UTF8.decode p with
    | none =>
      rw [hrunes] at h
      cases h
    | some runes =>
      rw [hrunes] at h
      exact @sanitizeLoop_spec _ [] q (by simp) h

/-- A sanitized path is made of safe segments and sanitized again to itself. -/
theorem sanitizePath_safe {p q : Bytes} (h : sanitizePath p = some q) :
    (∃ segs, q = joined segs ∧ ∀ s ∈ segs, SafeSegment s) ∧ sanitizePath q = some q := by
  obtain ⟨segs, rfl, hsafe⟩ := sanitizePath_segments h
  exact ⟨⟨segs, rfl, hsafe⟩, sanitizePath_joined hsafe⟩

theorem sanitizePath_safe_encoded :
    sanitizePath (ascii ['a', '%', '4', '1', '/', '/', '.', '/', 'b']) =
        some (ascii ['a', 'A', '/', 'b']) ∧
      sanitizePath (ascii ['a', 'A', '/', 'b']) = some (ascii ['a', 'A', '/', 'b']) := by
  have h : sanitizePath (ascii ['a', '%', '4', '1', '/', '/', '.', '/', 'b']) =
      some (ascii ['a', 'A', '/', 'b']) := by decide +kernel
  exact ⟨h, (sanitizePath_safe h).2⟩

end RenoP.Paths
