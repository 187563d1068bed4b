import RenoP.Cargo.IndexHistory
import RenoP.Cargo.Metadata

/-!
# Reading back an index that was written

What `scanIndex` makes of the output of `rewriteIndex`.
-/

namespace RenoP.Cargo

open RenoP.Database (Text)
open RenoP.Review (byteLength)
open Lines (Bytes)
open Fallible (bind_ok foldlM_cons_ok)
open JSONText (Escape Value)

def Readable (data : Bytes) : Prop := scanIndex (some data) (fun _ _ => .ok ()) () = .ok ()

theorem blank_append_return (line : Bytes) (h : blank line = true) :
    blank (line ++ [Lines.carriageReturn]) = true := by
  fun_induction blank line with
  | case1 => rfl
  | case2 b line ih =>
    simp only [Bool.and_eq_true] at h
    simp only [List.cons_append, blank, Bool.and_eq_true]
    exact ⟨h.1, ih h.2⟩
  | case3 b c line ih =>
    simp only [Bool.and_eq_true] at h
    simp only [List.cons_append, blank, Bool.and_eq_true]
    exact ⟨h.1, ih h.2⟩
  | case4 b c line ih =>
    simp only [Bool.and_eq_true] at h
    simp only [List.cons_append, blank, Bool.and_eq_true]
    exact ⟨h.1, ih h.2⟩
  | case5 b c line ih =>
    simp only [Bool.and_eq_true] at h
    simp only [List.cons_append, blank, Bool.and_eq_true]
    exact ⟨h.1, ih h.2⟩
  | case6 b line h1 h2 h3 h4 ih =>
    rw [Bool.and_eq_true] at h
    -- a byte of white space starts none of the longer characters
    have hc2 : b ≠ 0xc2 := by rintro rfl; simp at h
    have he1 : b ≠ 0xe1 := by rintro rfl; simp at h
    have he2 : b ≠ 0xe2 := by rintro rfl; simp at h
    have he3 : b ≠ 0xe3 := by rintro rfl; simp at h
    rw [List.cons_append, blank, Bool.and_eq_true]
    · exact ⟨h.1, ih h.2⟩
    · intro b' line' heq
      exact absurd heq hc2
    · intro b' c' line' heq
      exact absurd heq he1
    · intro b' c' line' heq
      exact absurd heq he2
    · intro b' c' line' heq
      exact absurd heq he3

theorem blank_dropCR {line : Bytes} (h : blank (Lines.dropCR line) = true) : blank line = true := by
  unfold Lines.dropCR at h
  split_ifs at h with hlast
  · obtain ⟨front, rfl⟩ := List.getLast?_eq_some_iff.mp hlast
    rw [List.dropLast_concat] at h
    exact blank_append_return front h
  · exact h

theorem length_dropCR_le (line : Bytes) : (Lines.dropCR line).length ≤ line.length := by
  unfold Lines.dropCR
  split_ifs
  · simp
  · exact le_refl _

theorem mem_dropCR {line : Bytes} {b : UInt8} (h : b ∈ Lines.dropCR line) : b ∈ line := by
  unfold Lines.dropCR at h
  split_ifs at h
  · exact List.dropLast_subset line h
  · exact h

/-- A line that the scanner has room for and `scanIndex` does not refuse as empty. -/
def Scannable (line : Bytes) : Prop :=
  line.length < maxIndexLineSize ∧ blank (Lines.dropCR line) = false

theorem scanLoop_cases {σ : Type} {visit : σ → Bytes → Except IndexError σ} {lines : List Bytes}
    {total : ℕ} {s s' : σ} (h : scanLoop visit lines total s = .ok s') :
    (lines.map Lines.dropCR).foldlM visit s = .ok s' ∧ ∀ line ∈ lines, Scannable line := by
  induction lines generalizing total s with
  | nil => exact ⟨h, by simp⟩
  | cons line lines ih =>
    unfold scanLoop at h
    dsimp only at h
    split_ifs at h with hlong hlarge hblank
    obtain ⟨s₁, hvisit, hrest⟩ := bind_ok h
    obtain ⟨hfold, hlines⟩ := ih hrest
    constructor
    · rw [List.map_cons, List.foldlM_cons, hvisit]
      exact hfold
    · intro line' hmem
      obtain rfl | hmem := List.mem_cons.mp hmem
      · exact ⟨by omega, by simpa using hblank⟩
      · exact hlines line' hmem

theorem scanLoop_accept {lines : List Bytes} (hlines : ∀ line ∈ lines, Scannable line) {total : ℕ}
    (htotal : total + (Lines.join lines).length ≤ maxIndexSize) :
    scanLoop (fun _ _ => .ok ()) lines total () = .ok () := by
  induction lines generalizing total with
  | nil => rfl
  | cons line lines ih =>
    obtain ⟨hshort, hblank⟩ := hlines line (List.mem_cons_self ..)
    have hdrop := length_dropCR_le line
    simp only [Lines.join_cons, List.length_append, List.length_singleton] at htotal
    unfold scanLoop
    rw [if_neg (by omega)]
    simp only
    rw [if_neg (by omega), if_neg (by simp [hblank])]
    exact ih (fun line' hmem => hlines line' (List.mem_cons_of_mem line hmem)) (by omega)

theorem newline_not_mem_splitFrom {data line : Bytes} (hline : Lines.newline ∉ line) :
    ∀ token ∈ Lines.splitFrom line data, Lines.newline ∉ token := by
  induction data generalizing line with
  | nil =>
    intro token hmem
    unfold Lines.splitFrom at hmem
    split_ifs at hmem
    · cases hmem
    · rw [List.mem_singleton] at hmem
      rwa [hmem]
  | cons b data ih =>
    intro token hmem
    unfold Lines.splitFrom at hmem
    split_ifs at hmem with hb
    · obtain rfl | hmem := List.mem_cons.mp hmem
      · exact hline
      · exact ih List.not_mem_nil token hmem
    · refine ih ?_ token hmem
      simp [hline, Ne.symm hb]

theorem readable_join_iff {lines : List Bytes} (hlines : ∀ line ∈ lines, Lines.newline ∉ line)
    (hsize : (Lines.join lines).length ≤ maxIndexSize) :
    Readable (Lines.join lines) ↔ ∀ line ∈ lines, Scannable line := by
  have htake : (Lines.join lines).take (maxIndexSize + 1) = Lines.join lines :=
    List.take_of_length_le (by omega)
  unfold Readable scanIndex
  simp only [htake, Lines.split_join lines hlines]
  constructor
  · intro h
    exact (scanLoop_cases h).2
  · intro h
    exact scanLoop_accept h (by omega)

variable {json : JSON} {semver : Semver} {fold : Char → Char}

theorem visitIndex_copies {entry : IndexEntry} {s s' : Bytes × Bool} {line : Bytes}
    (h : visitIndex json semver fold entry s line = .ok s') :
    s'.1 = s.1 ++ (line ++ [Lines.newline]) := by
  unfold visitIndex at h
  split at h
  · cases h
  · split_ifs at h
    obtain ⟨wrote, hcopy, hreturn⟩ := bind_ok h
    cases hreturn
    exact (copyLine_ok hcopy).1

theorem fold_visitIndex_copies {entry : IndexEntry} {lines : List Bytes} {s s' : Bytes × Bool}
    (h : lines.foldlM (visitIndex json semver fold entry) s = .ok s') :
    s'.1 = s.1 ++ Lines.join lines := by
  induction lines generalizing s with
  | nil =>
    cases h
    simp
  | cons line lines ih =>
    obtain ⟨s₁, hvisit, hrest⟩ := foldlM_cons_ok h
    rw [ih hrest, visitIndex_copies hvisit, Lines.join_cons, List.append_assoc]

theorem scanIndex_copies {entry : IndexEntry} {index : Option Bytes} {s' : Bytes × Bool}
    (h : scanIndex index (visitIndex json semver fold entry) ([], false) = .ok s') :
    ∃ lines, s'.1 = Lines.join lines ∧ (∀ line ∈ lines, Lines.newline ∉ line) ∧
      ∀ line ∈ lines, Scannable line := by
  cases index with
  | none =>
    cases h
    exact ⟨[], rfl, by simp, by simp⟩
  | some data =>
    obtain ⟨hfold, hscan⟩ := scanLoop_cases h
    refine ⟨_, (fold_visitIndex_copies hfold).trans (List.nil_append _), ?_, ?_⟩
    · intro line hmem
      obtain ⟨token, htoken, rfl⟩ := List.mem_map.mp hmem
      exact fun hnewline => newline_not_mem_splitFrom List.not_mem_nil token htoken
        (mem_dropCR hnewline)
    · intro line hmem
      obtain ⟨token, htoken, rfl⟩ := List.mem_map.mp hmem
      obtain ⟨hshort, hblank⟩ := hscan token htoken
      refine ⟨lt_of_le_of_lt (length_dropCR_le token) hshort, ?_⟩
      rw [Bool.eq_false_iff] at hblank ⊢
      exact fun h => hblank (blank_dropCR h)

theorem rewriteIndex_lines {entry : IndexEntry} {index : Option Bytes} {out : Bytes}
    (h : rewriteIndex json semver fold index entry = .ok out) :
    ∃ lines, out = Lines.join (lines ++ [json.encode entry]) ∧ out.length ≤ maxIndexSize ∧
      (∀ line ∈ lines, Lines.newline ∉ line) ∧ ∀ line ∈ lines, Scannable line := by
  unfold rewriteIndex at h
  obtain ⟨⟨wrote, versionExists⟩, hscan, hrest⟩ := bind_ok h
  obtain ⟨lines, hwrote, hlines, hscannable⟩ := scanIndex_copies hscan
  cases versionExists with
  | true => cases hrest
  | false =>
    obtain ⟨hout, hle⟩ := write_ok hrest
    refine ⟨lines, ?_, hle, hlines, hscannable⟩
    rw [hout, Lines.join_append]
    simp only at hwrote
    rw [hwrote]
    simp [Lines.join]

theorem rewriteIndex_first {entry : IndexEntry} (h : (json.encode entry).length < maxIndexSize) :
    rewriteIndex json semver fold none entry = .ok (Lines.join [json.encode entry]) := by
  have hwrite : encodeEntry json [] entry = .ok (Lines.join [json.encode entry]) := by
    unfold encodeEntry write
    rw [List.length_append, List.length_singleton, List.length_nil, if_neg (by omega)]
    simp [Lines.join]
  exact hwrite

theorem long_line_unreadable {line : Bytes} (hlong : maxIndexLineSize ≤ line.length)
    (hsmall : line.length < maxIndexSize) (hline : Lines.newline ∉ line) :
    ¬Readable (Lines.join [line]) := by
  have hsize : (Lines.join [line]).length ≤ maxIndexSize := by
    rw [Lines.join_cons, Lines.join_nil, List.append_nil, List.length_append,
      List.length_singleton]
    exact hsmall
  rw [readable_join_iff (List.forall_mem_singleton.mpr hline) hsize, List.forall_mem_singleton]
  exact fun hscannable => absurd hscannable.1 (Nat.not_lt.mpr hlong)

theorem scannable_encode_iff {e : Escape} {fields : List (Text × Value)} :
    Scannable (JSONText.encode e (.obj fields)) ↔
      JSONText.size e (.obj fields) < maxIndexLineSize := by
  unfold Scannable
  rw [JSONText.length_encode]
  refine and_iff_left_of_imp fun _ => ?_
  have hlast : Lines.dropCR (JSONText.encode e (.obj fields)) =
      JSONText.encode e (.obj fields) := by
    unfold Lines.dropCR JSONText.encode
    rw [if_neg]
    rw [List.getLast?_append, List.getLast?_singleton, Option.some_or]
    decide
  rw [hlast]
  exact blank_object rfl

structure Publication (toLower : Char → Char) (decode : Bytes → Option PublishMetadata) where
  body : Bytes
  contentLength : ℤ
  metadata : PublishMetadata
  crateLength : ℕ
  deps : List IndexDependency
  header : readPublishHeader decode body contentLength = some (metadata, crateLength)
  valid : validatePublishMetadata metadata = .ok ()
  dependencies : indexDependencies toLower metadata.deps = .ok deps

section Publications
variable {toLower : Char → Char} {decode : Bytes → Option PublishMetadata}

def Publication.entry (p : Publication toLower decode) (checksum manifestRustVersion : Text) :
    IndexEntry :=
  publishEntry p.metadata p.deps checksum manifestRustVersion

def Publication.line (p : Publication toLower decode) (checksum manifestRustVersion : Text) :
    Value :=
  entryValue p.metadata p.deps checksum manifestRustVersion

/-- The output of a publication is read back exactly where its new line, whose size is that of the
metadata's texts as they are escaped, is shorter than the scanner's buffer. -/
theorem index_read_back_iff (e : Escape) (p : Publication toLower decode) {index : Option Bytes}
    {checksum manifestRustVersion : Text} {out : Bytes}
    (hencode : json.encode (p.entry checksum manifestRustVersion) =
      JSONText.encode e (p.line checksum manifestRustVersion))
    (hrewrite : rewriteIndex json semver fold index (p.entry checksum manifestRustVersion) =
      .ok out) :
    Readable out ↔ JSONText.size e (p.line checksum manifestRustVersion) < maxIndexLineSize := by
  obtain ⟨lines, rfl, hsize, hlines, hscannable⟩ := rewriteIndex_lines hrewrite
  rw [hencode] at hsize ⊢
  rw [readable_join_iff _ hsize]
  · rw [List.forall_mem_append, List.forall_mem_singleton]
    exact (and_iff_right hscannable).trans scannable_encode_iff
  · rw [List.forall_mem_append, List.forall_mem_singleton]
    exact ⟨hlines, JSONText.newline_not_mem_encode _⟩

end Publications

def markupText : Text := List.replicate 1000 '<'

def markupMembers : List Text := List.replicate 1000 markupText

def markupMetadata : PublishMetadata where
  name := ['a']
  version := ['1', '.', '0', '.', '0']
  description := []
  deps := []
  features := GoMap.store ∅ ['f'] (some markupMembers)
  features2 := ∅
  links := none
  rustVersion := none

/-- `{"name":"a","vers":"1.0.0","features":{"f":["<<…<",…]}}`, about a million bytes. -/
def markupRequest : Value := .obj [
  (['n', 'a', 'm', 'e'], .str ['a']),
  (['v', 'e', 'r', 's'], .str ['1', '.', '0', '.', '0']),
  (['f', 'e', 'a', 't', 'u', 'r', 'e', 's'],
    .obj [(['f'], .arr (List.replicate 1000 (.str markupText)))])]

def markupRaw : Bytes := JSONText.encode JSONText.plain markupRequest

def markupDecode (raw : Bytes) : Option PublishMetadata :=
  if raw = markupRaw then some markupMetadata else none

theorem markupRaw_length : 0 < markupRaw.length ∧ markupRaw.length ≤ maxMetadataSize := by
  rw [markupRaw, JSONText.length_encode]
  simp only [markupRequest, JSONText.size, JSONText.sizeFields, JSONText.sizeList_replicate,
    markupText, JSONText.quoteSize_replicate]
  decide +kernel

theorem validMetadataText_replicate {n max : ℕ} (h : n ≤ max) :
    validMetadataText (List.replicate n '<') max true = true := by
  have hlength : byteLength (List.replicate n '<') = n := by
    rw [byteLength, List.map_replicate, List.sum_replicate_nat]
    exact Nat.mul_one n
  have hany : (List.replicate n '<').any (fun c => c == '\x00' || c == '\r' || c == '\n') =
      false := by
    rw [List.any_eq_false]
    intro c hc
    rw [List.eq_of_mem_replicate hc]
    decide
  simp [validMetadataText, hlength, hany, h]

theorem validateFeatureMap_single {name : Text} {members : List Text}
    (hname : validMetadataText name 1024 true = true)
    (hmembers : ∀ member ∈ members, validMetadataText member 1024 true = true) :
    validateFeatureMap (GoMap.store ∅ name (some members)) = .ok () := by
  have hentries : (GoMap.store ∅ name (some members) : FeatureMap).entries =
      [⟨name, some members⟩] := rfl
  unfold validateFeatureMap
  simp only [hentries, List.all_cons, List.all_nil, Bool.and_true, hname, Bool.not_true,
    Bool.false_eq_true, if_false, Option.getD_some, List.all_eq_true.mpr hmembers]

theorem markup_valid : validatePublishMetadata markupMetadata = .ok () := by
  have hfeatures : validateFeatureMap markupMetadata.features = .ok () := by
    refine validateFeatureMap_single (by decide) ?_
    intro member hmember
    rw [List.eq_of_mem_replicate hmember]
    exact validMetadataText_replicate (by decide)
  unfold validatePublishMetadata
  rw [hfeatures]
  decide

def crateChecksum : Text :=
  ['6', 'e', '3', '4', '0', 'b', '9', 'c', 'f', 'f', 'b', '3', '7', 'a', '9', '8', '9', 'c', 'a',
    '5', '4', '4', 'e', '6', 'b', 'b', '7', '8', '0', 'a', '2', 'c', '7', '8', '9', '0', '1', 'd',
    '3', 'f', 'b', '3', '3', '7', '3', '8', '7', '6', '8', '5', '1', '1', 'a', '3', '0', '6', '1',
    '7', 'a', 'f', 'a', '0', '1', 'd']

def markupPublication : Publication Char.toLower markupDecode where
  body := uint32 markupRaw.length ++ (markupRaw ++ (uint32 ([0] : Bytes).length ++ [0]))
  contentLength := 0
  metadata := markupMetadata
  crateLength := 1
  deps := []
  header := readPublishHeader_body (if_pos rfl) markupRaw_length.1 markupRaw_length.2 (by decide)
    (by decide)
  valid := markup_valid
  dependencies := rfl

def markupLine : Value := markupPublication.line crateChecksum []

theorem markup_size : maxIndexLineSize ≤ JSONText.size JSONText.html markupLine ∧
    JSONText.size JSONText.html markupLine < maxIndexSize := by
  have hfeatures : featuresValue markupMetadata.features =
      .obj [(['f'], .arr (List.replicate 1000 (.str markupText)))] := by
    change Value.obj (List.mergeSort [(['f'], membersValue (some markupMembers))] _) = _
    rw [List.mergeSort_singleton, membersValue, markupMembers, List.map_replicate]
  have hline : markupLine = .obj [
      (['n', 'a', 'm', 'e'], .str ['a']),
      (['v', 'e', 'r', 's'], .str ['1', '.', '0', '.', '0']),
      (['d', 'e', 'p', 's'], .arr []),
      (['c', 'k', 's', 'u', 'm'], .str crateChecksum),
      (['f', 'e', 'a', 't', 'u', 'r', 'e', 's'],
        .obj [(['f'], .arr (List.replicate 1000 (.str markupText)))]),
      (['y', 'a', 'n', 'k', 'e', 'd'], .bool false),
      (['l', 'i', 'n', 'k', 's'], .null)] := by
    rw [← hfeatures]
    rfl
  rw [hline]
  simp only [JSONText.size, JSONText.sizeList, JSONText.sizeFields, JSONText.sizeList_replicate,
    markupText, JSONText.quoteSize_replicate]
  decide +kernel

def markupJSON : JSON where
  encode _ := JSONText.encode JSONText.html markupLine
  unmarshal _ := none
  unmarshalValidation _ := none

def allVersions : Semver := ⟨fun _ => true, fun _ _ => 0⟩

theorem markup_rewritten : rewriteIndex markupJSON allVersions id none
    (markupPublication.entry crateChecksum []) =
      .ok (Lines.join [markupJSON.encode (markupPublication.entry crateChecksum [])]) := by
  refine rewriteIndex_first ?_
  have hlength : (markupJSON.encode (markupPublication.entry crateChecksum [])).length =
      JSONText.size JSONText.html markupLine := JSONText.length_encode _
  rw [hlength]
  exact markup_size.2

theorem markup_read_back :
    Readable (Lines.join [markupJSON.encode (markupPublication.entry crateChecksum [])]) ↔
      JSONText.size JSONText.html (markupPublication.line crateChecksum []) < maxIndexLineSize :=
  index_read_back_iff JSONText.html markupPublication rfl markup_rewritten

theorem markup_index_unreadable :
    ¬∀ out, rewriteIndex markupJSON allVersions id none
      (markupPublication.entry crateChecksum []) = .ok out → Readable out := by
  intro hreadable
  have hlength : (markupJSON.encode (markupPublication.entry crateChecksum [])).length =
      JSONText.size JSONText.html markupLine := JSONText.length_encode _
  obtain ⟨hlong, hsmall⟩ := markup_size
  rw [← hlength] at hlong hsmall
  refine long_line_unreadable hlong hsmall ?_ (hreadable _ markup_rewritten)
  exact JSONText.newline_not_mem_encode _

end RenoP.Cargo
