import RenoP.Cargo.IndexFile
import RenoP.Lib.Fallible

/-!
# Histories of an index file

What a history of publications, yanks and removals leaves, and that the file is the lines of it.
-/

namespace RenoP.Cargo

open RenoP.Database (Text)
open Lines (Bytes)
open Fallible (bind_ok foldlM_cons_ok)

inductive Step where
  | publish (entry : IndexEntry)
  | yank (version : Text) (yanked : Bool)
  | remove (version : Text)

def Step.version : Step → Text
  | .publish entry => entry.version
  | .yank version _ | .remove version => version

def lastYank (version : Text) : List Step → Bool → Bool
  | [], yanked => yanked
  | .yank v b :: later, yanked => lastYank version later (if v = version then b else yanked)
  | _ :: later, yanked => lastYank version later yanked

def removes (version : Text) : Step → Bool
  | .remove v => v == version
  | _ => false

/-- The entries published and not removed, in the order of their publication, each with the last
yank state. -/
def live : List Step → List IndexEntry
  | [] => []
  | .publish entry :: later =>
    if later.any (removes entry.version) then live later
    else { entry with yanked := lastYank entry.version later entry.yanked } :: live later
  | _ :: later => live later

def after (es : List IndexEntry) : Step → List IndexEntry
  | .publish entry => es ++ [entry]
  | .yank version yanked =>
    es.map fun e => if e.version = version then { e with yanked := yanked } else e
  | .remove version => es.filter fun e => e.version != version

theorem lastYank_append (version : Text) (h : List Step) (step : Step) (yanked : Bool) :
    lastYank version (h ++ [step]) yanked = lastYank version [step] (lastYank version h yanked) := by
  induction h generalizing yanked with
  | nil => rfl
  | cons s h ih =>
    cases s with
    | publish entry => exact ih yanked
    | yank v b => exact ih (if v = version then b else yanked)
    | remove v => exact ih yanked

theorem live_append (h : List Step) (step : Step) : live (h ++ [step]) = after (live h) step := by
  induction h with
  | nil => cases step <;> rfl
  | cons s h ih =>
    cases s with
    | yank v b => exact ih
    | remove v => exact ih
    | publish entry =>
      rw [List.cons_append, live, live, ih, List.any_append, lastYank_append]
      cases hremoved : h.any (removes entry.version) with
      | true => rfl
      | false =>
        cases step with
        | publish e => simp [removes, after, lastYank]
        | yank v b =>
          by_cases heq : v = entry.version
          · simp [removes, after, lastYank, heq]
          · simp [removes, after, lastYank, heq, Ne.symm heq]
        | remove v =>
          by_cases heq : v = entry.version
          · simp [removes, after, heq]
          · simp [removes, after, lastYank, heq, Ne.symm heq]

variable (json : JSON) (semver : Semver) (fold : Char → Char)

def next (index : Option Bytes) : Step → Except IndexError (Option Bytes)
  | .publish entry => do return some (← rewriteIndex json semver fold index entry)
  | .yank version yanked => do return some (← rewriteYanked json index version yanked).1
  | .remove version => do return some (← rewriteRemoveVersion json index version).wrote

def run (index : Option Bytes) (history : List Step) : Except IndexError (Option Bytes) :=
  history.foldlM (next json semver fold) index

def indexLines (index : Option Bytes) : List Bytes := Lines.split (index.getD [])

variable {json semver fold}

structure JSON.Encodes (json : JSON) (entry : IndexEntry) : Prop where
  object : (json.encode entry).head? = some 0x7b
  one_line : Lines.newline ∉ json.encode entry
  no_return : Lines.carriageReturn ∉ json.encode entry
  unmarshal : json.unmarshal (json.encode entry) = some entry
  validation : json.unmarshalValidation (json.encode entry) = some ⟨entry.name, entry.version⟩

structure Semver.Preorder (semver : Semver) : Prop where
  refl : ∀ v, semver.compare v v = 0
  symm : ∀ v w, semver.compare v w = 0 → semver.compare w v = 0

theorem sameVersion_refl (h : semver.Preorder) (v : Text) : sameVersion semver v v = true := by
  unfold sameVersion
  split_ifs
  · exact beq_self_eq_true v
  · rw [h.refl]
    rfl

theorem blank_object {line : Bytes} (h : line.head? = some 0x7b) : blank line = false := by
  cases line with
  | nil => cases h
  | cons b line =>
    cases h
    rfl

theorem scanLoop_eq {σ : Type} {visit : σ → Bytes → Except IndexError σ} {lines : List Bytes}
    (hlines : ∀ line ∈ lines, Lines.carriageReturn ∉ line) {total : ℕ} {s s' : σ}
    (h : scanLoop visit lines total s = .ok s') : lines.foldlM visit s = .ok s' := by
  induction lines generalizing total s with
  | nil => exact h
  | cons line lines ih =>
    have hrest := fun line' hmem => hlines line' (List.mem_cons_of_mem line hmem)
    simp only [scanLoop, Lines.dropCR_eq_self (hlines line (List.mem_cons_self ..))] at h
    split_ifs at h
    rw [List.foldlM_cons]
    cases hvisit : visit s line with
    | error e =>
      rw [hvisit] at h
      cases h
    | ok s₁ =>
      rw [hvisit] at h
      exact ih hrest h

def fileOf (json : JSON) (es : List IndexEntry) : Bytes := Lines.join (es.map json.encode)

structure Holds (json : JSON) (semver : Semver) (index : Option Bytes) (es : List IndexEntry) :
    Prop where
  content : index.getD [] = fileOf json es
  size_le : (fileOf json es).length ≤ maxIndexSize
  encodes : ∀ e ∈ es, ∀ yanked, json.Encodes { e with yanked := yanked }
  distinct : es.Pairwise fun e e' => sameVersion semver e.version e'.version = false

variable {index : Option Bytes} {es : List IndexEntry}

theorem Holds.encodes_self (h : Holds json semver index es) : ∀ e ∈ es, json.Encodes e :=
  fun e he => h.encodes e he e.yanked

theorem fileOf_cons (e : IndexEntry) (es : List IndexEntry) :
    fileOf json (e :: es) = json.encode e ++ [Lines.newline] ++ fileOf json es :=
  Lines.join_cons _ _

theorem fileOf_append (es es' : List IndexEntry) :
    fileOf json (es ++ es') = fileOf json es ++ fileOf json es' := by
  unfold fileOf
  rw [List.map_append, Lines.join_append]

theorem split_fileOf (h : ∀ e ∈ es, json.Encodes e) :
    Lines.split (fileOf json es) = es.map json.encode := by
  apply Lines.split_join
  intro line hline
  obtain ⟨e, he, rfl⟩ := List.mem_map.mp hline
  exact (h e he).one_line

theorem Holds.scan {σ : Type} {visit : σ → Bytes → Except IndexError σ} {s s' : σ}
    (h : Holds json semver index es) (hscan : scanIndex index visit s = .ok s') :
    (es.map json.encode).foldlM visit s = .ok s' := by
  have hlines : ∀ line ∈ es.map json.encode, Lines.carriageReturn ∉ line := by
    intro line hline
    obtain ⟨e, he, rfl⟩ := List.mem_map.mp hline
    exact (h.encodes_self e he).no_return
  cases index with
  | none =>
    have hnil : es = [] := by
      cases es with
      | nil => rfl
      | cons e es =>
        have hcontent := h.content
        rw [fileOf_cons] at hcontent
        simp at hcontent
    rw [hnil]
    exact hscan
  | some data =>
    have hdata : data = fileOf json es := h.content
    have htake : data.take (maxIndexSize + 1) = data := by
      apply List.take_of_length_le
      rw [hdata]
      exact Nat.le_succ_of_le h.size_le
    unfold scanIndex at hscan
    dsimp only at hscan
    rw [htake, hdata, split_fileOf h.encodes_self] at hscan
    exact scanLoop_eq hlines hscan

theorem write_ok {wrote data wrote' : Bytes} (h : write wrote data = .ok wrote') :
    wrote' = wrote ++ data ∧ wrote'.length ≤ maxIndexSize := by
  unfold write at h
  split_ifs at h with hlarge
  cases h
  rw [List.length_append]
  exact ⟨rfl, by omega⟩

theorem copyLine_ok {wrote line wrote' : Bytes} (h : copyLine wrote line = .ok wrote') :
    wrote' = wrote ++ (line ++ [Lines.newline]) ∧ wrote'.length ≤ maxIndexSize := by
  unfold copyLine at h
  cases hwrite : write wrote line with
  | error e =>
    rw [hwrite] at h
    cases h
  | ok wrote₁ =>
    rw [hwrite] at h
    obtain ⟨heq, hle⟩ := write_ok h
    rw [heq, (write_ok hwrite).1, List.append_assoc]
    rw [heq, (write_ok hwrite).1, List.append_assoc] at hle
    exact ⟨rfl, hle⟩

theorem readEntry_encode {e e' : IndexEntry} (h : json.Encodes e)
    (hread : readEntry json (json.encode e) = .ok e') : e' = e := by
  unfold readEntry at hread
  rw [h.unmarshal] at hread
  dsimp only at hread
  split_ifs at hread
  cases hread
  rfl

theorem visitIndex_ok {entry e : IndexEntry} (h : json.Encodes e) {s s' : Bytes × Bool}
    (hvisit : visitIndex json semver fold entry s (json.encode e) = .ok s') :
    s'.1 = s.1 ++ fileOf json [e] ∧ s'.2 = (s.2 || sameVersion semver e.version entry.version) := by
  unfold visitIndex at hvisit
  rw [h.validation] at hvisit
  dsimp only at hvisit
  split_ifs at hvisit
  obtain ⟨wrote, hcopy, hreturn⟩ := bind_ok hvisit
  cases hreturn
  rw [fileOf_cons]
  exact ⟨by rw [(copyLine_ok hcopy).1]; simp [fileOf], rfl⟩

theorem fold_visitIndex {entry : IndexEntry} (h : ∀ e ∈ es, json.Encodes e) {s s' : Bytes × Bool}
    (hfold : (es.map json.encode).foldlM (visitIndex json semver fold entry) s = .ok s') :
    s'.1 = s.1 ++ fileOf json es ∧
      s'.2 = (s.2 || es.any fun e => sameVersion semver e.version entry.version) := by
  induction es generalizing s with
  | nil =>
    cases hfold
    simp [fileOf]
  | cons e es ih =>
    obtain ⟨s₁, hvisit, hrest⟩ := foldlM_cons_ok hfold
    obtain ⟨hwrote, hexists⟩ := visitIndex_ok (h e (List.mem_cons_self ..)) hvisit
    obtain ⟨hwrote', hexists'⟩ := ih (fun e' he' => h e' (List.mem_cons_of_mem e he')) hrest
    constructor
    · rw [hwrote', hwrote, List.append_assoc, ← fileOf_append]
      rfl
    · rw [hexists', hexists, List.any_cons, Bool.or_assoc]

theorem visitYanked_found {version : Text} {yanked : Bool} {e : IndexEntry} {wrote : Bytes}
    {s' : Bytes × Bool}
    (hvisit : visitYanked json version yanked (wrote, true) (json.encode e) = .ok s') :
    s' = (wrote ++ fileOf json [e], true) ∧ s'.1.length ≤ maxIndexSize := by
  unfold visitYanked at hvisit
  rw [if_pos rfl] at hvisit
  obtain ⟨wrote', hcopy, hreturn⟩ := bind_ok hvisit
  cases hreturn
  obtain ⟨heq, hle⟩ := copyLine_ok hcopy
  rw [heq] at hle ⊢
  exact ⟨by simp [fileOf, Lines.join], hle⟩

theorem visitYanked_searching {version : Text} {yanked : Bool} {e : IndexEntry} {wrote : Bytes}
    {s' : Bytes × Bool} (h : json.Encodes e)
    (hvisit : visitYanked json version yanked (wrote, false) (json.encode e) = .ok s') :
    s'.1.length ≤ maxIndexSize ∧
      if e.version = version then
        s' = (wrote ++ fileOf json [{ e with yanked := yanked }], true)
      else s' = (wrote ++ fileOf json [e], false) := by
  unfold visitYanked at hvisit
  rw [if_neg Bool.false_ne_true] at hvisit
  obtain ⟨e', hread, hvisit⟩ := bind_ok hvisit
  rw [readEntry_encode h hread] at hvisit
  by_cases heq : e.version = version
  · rw [if_neg (not_not_intro heq)] at hvisit
    obtain ⟨wrote', hencode, hreturn⟩ := bind_ok hvisit
    cases hreturn
    obtain ⟨hwrote, hle⟩ := write_ok hencode
    rw [hwrote] at hle ⊢
    rw [if_pos heq]
    exact ⟨hle, by simp [fileOf, Lines.join]⟩
  · rw [if_pos heq] at hvisit
    obtain ⟨wrote', hcopy, hreturn⟩ := bind_ok hvisit
    cases hreturn
    obtain ⟨hwrote, hle⟩ := copyLine_ok hcopy
    rw [hwrote] at hle ⊢
    rw [if_neg heq]
    exact ⟨hle, by simp [fileOf, Lines.join]⟩

theorem fold_visitYanked_found {version : Text} {yanked : Bool} {wrote : Bytes}
    {s' : Bytes × Bool} (hle : wrote.length ≤ maxIndexSize)
    (hfold : (es.map json.encode).foldlM (visitYanked json version yanked) (wrote, true) =
      .ok s') : s'.1 = wrote ++ fileOf json es ∧ s'.1.length ≤ maxIndexSize := by
  induction es generalizing wrote with
  | nil =>
    cases hfold
    exact ⟨by simp [fileOf], hle⟩
  | cons e es ih =>
    obtain ⟨s₁, hvisit, hrest⟩ := foldlM_cons_ok hfold
    obtain ⟨heq, hle₁⟩ := visitYanked_found hvisit
    rw [heq] at hrest hle₁
    obtain ⟨hwrote, hle'⟩ := ih hle₁ hrest
    rw [hwrote, List.append_assoc, ← fileOf_append] at *
    exact ⟨rfl, hle'⟩

theorem fold_visitYanked {version : Text} {yanked : Bool} {wrote : Bytes} {s' : Bytes × Bool}
    (h : ∀ e ∈ es, json.Encodes e) (hdistinct : (es.map (·.version)).Nodup)
    (hle : wrote.length ≤ maxIndexSize)
    (hfold : (es.map json.encode).foldlM (visitYanked json version yanked) (wrote, false) =
      .ok s') :
    s'.1 = wrote ++ fileOf json (after es (.yank version yanked)) ∧
      s'.1.length ≤ maxIndexSize := by
  induction es generalizing wrote with
  | nil =>
    cases hfold
    exact ⟨by simp [fileOf, after], hle⟩
  | cons e es ih =>
    obtain ⟨s₁, hvisit, hrest⟩ := foldlM_cons_ok hfold
    have hrests := fun e' he' => h e' (List.mem_cons_of_mem e he')
    rw [List.map_cons, List.nodup_cons] at hdistinct
    obtain ⟨hle₁, hcases⟩ := visitYanked_searching (h e (List.mem_cons_self ..)) hvisit
    by_cases heq : e.version = version
    · rw [if_pos heq] at hcases
      -- no other line has the version
      have hothers : after es (.yank version yanked) = es := by
        apply (List.map_congr_left _).trans es.map_id
        intro e' he'
        apply if_neg
        intro heq'
        apply hdistinct.1
        rw [heq, ← heq']
        exact List.mem_map_of_mem he'
      rw [hcases] at hrest hle₁
      obtain ⟨hwrote, hle'⟩ := fold_visitYanked_found hle₁ hrest
      refine ⟨?_, hle'⟩
      have hcons : after (e :: es) (.yank version yanked) =
          { e with yanked := yanked } :: after es (.yank version yanked) := by
        simp [after, heq]
      rw [hwrote, hcons, hothers, List.append_assoc, ← fileOf_append]
      rfl
    · rw [if_neg heq] at hcases
      rw [hcases] at hrest hle₁
      obtain ⟨hwrote, hle'⟩ := ih hrests hdistinct.2 hle₁ hrest
      refine ⟨?_, hle'⟩
      have hcons : after (e :: es) (.yank version yanked) =
          e :: after es (.yank version yanked) := by
        simp [after, heq]
      rw [hwrote, hcons, List.append_assoc, ← fileOf_append]
      rfl

theorem visitRemoveVersion_ok {version : Text} {e : IndexEntry} {s s' : Removal}
    (h : json.Encodes e) (hle : s.wrote.length ≤ maxIndexSize)
    (hvisit : visitRemoveVersion json version s (json.encode e) = .ok s') :
    s'.wrote = s.wrote ++ fileOf json (after [e] (.remove version)) ∧
      s'.wrote.length ≤ maxIndexSize := by
  unfold visitRemoveVersion at hvisit
  obtain ⟨e', hread, hvisit⟩ := bind_ok hvisit
  rw [readEntry_encode h hread] at hvisit
  by_cases heq : e.version = version
  · rw [if_pos heq] at hvisit
    cases hvisit
    exact ⟨by simp [after, heq, fileOf], hle⟩
  · rw [if_neg heq] at hvisit
    obtain ⟨wrote', hcopy, hreturn⟩ := bind_ok hvisit
    cases hreturn
    obtain ⟨hwrote, hle'⟩ := copyLine_ok hcopy
    rw [hwrote] at hle' ⊢
    exact ⟨by simp [after, heq, fileOf, Lines.join], hle'⟩

theorem fold_visitRemoveVersion {version : Text} {s s' : Removal} (h : ∀ e ∈ es, json.Encodes e)
    (hle : s.wrote.length ≤ maxIndexSize)
    (hfold : (es.map json.encode).foldlM (visitRemoveVersion json version) s = .ok s') :
    s'.wrote = s.wrote ++ fileOf json (after es (.remove version)) ∧
      s'.wrote.length ≤ maxIndexSize := by
  induction es generalizing s with
  | nil =>
    cases hfold
    exact ⟨by simp [fileOf, after], hle⟩
  | cons e es ih =>
    obtain ⟨s₁, hvisit, hrest⟩ := foldlM_cons_ok hfold
    obtain ⟨hwrote, hle₁⟩ := visitRemoveVersion_ok (h e (List.mem_cons_self ..)) hle hvisit
    obtain ⟨hwrote', hle'⟩ := ih (fun e' he' => h e' (List.mem_cons_of_mem e he')) hle₁ hrest
    refine ⟨?_, hle'⟩
    have happend : after ([e] ++ es) (.remove version) =
        after [e] (.remove version) ++ after es (.remove version) := by
      simp only [after]
      exact List.filter_append [e] es
    rw [hwrote', hwrote, List.append_assoc, ← fileOf_append, ← happend]
    rfl

theorem Holds.next_publish (h : Holds json semver index es) {entry : IndexEntry}
    (hentry : ∀ yanked, json.Encodes { entry with yanked := yanked }) {wrote : Bytes}
    (hrewrite : rewriteIndex json semver fold index entry = .ok wrote) :
    Holds json semver (some wrote) (es ++ [entry]) := by
  obtain ⟨⟨wrote₁, versionExists⟩, hscan, hrest⟩ := bind_ok hrewrite
  obtain ⟨hwrote, hexists⟩ := fold_visitIndex h.encodes_self (h.scan hscan)
  dsimp only at hrest hwrote hexists
  cases versionExists with
  | true => cases hrest
  | false =>
    obtain ⟨heq, hle⟩ := write_ok hrest
    have hfile : wrote = fileOf json (es ++ [entry]) := by
      rw [heq, hwrote, fileOf_append]
      simp [fileOf, Lines.join]
    constructor
    · exact hfile
    · rw [← hfile]
      exact hle
    · intro e he
      rcases List.mem_append.mp he with hmem | hmem
      · exact h.encodes e hmem
      · rw [List.mem_singleton.mp hmem]
        exact hentry
    · rw [List.pairwise_append]
      refine ⟨h.distinct, List.pairwise_singleton _ _, ?_⟩
      intro e he e' he'
      rw [Bool.false_or] at hexists
      rw [List.mem_singleton.mp he']
      exact Bool.eq_false_iff.mpr (List.any_eq_false.mp hexists.symm e he)

theorem Holds.next_yank (h : Holds json semver index es) (hsemver : semver.Preorder)
    {version : Text} {yanked : Bool} {s : Bytes × Bool}
    (hrewrite : rewriteYanked json index version yanked = .ok s) :
    Holds json semver (some s.1) (after es (.yank version yanked)) := by
  have hversions : (es.map (·.version)).Nodup := by
    apply List.pairwise_map.mpr
    apply h.distinct.imp
    intro e e' hne heq
    rw [heq, sameVersion_refl hsemver] at hne
    cases hne
  obtain ⟨hwrote, hle⟩ :=
    fold_visitYanked h.encodes_self hversions (Nat.zero_le _) (h.scan hrewrite)
  rw [List.nil_append] at hwrote
  constructor
  · exact hwrote
  · rw [← hwrote]
    exact hle
  · intro e he
    obtain ⟨e', he', rfl⟩ := List.mem_map.mp he
    split_ifs
    · exact h.encodes e' he'
    · exact h.encodes e' he'
  · apply List.pairwise_map.mpr
    apply h.distinct.imp
    intro e e' hne
    split_ifs <;> exact hne

theorem Holds.next_remove (h : Holds json semver index es) {version : Text} {s : Removal}
    (hrewrite : rewriteRemoveVersion json index version = .ok s) :
    Holds json semver (some s.wrote) (after es (.remove version)) := by
  obtain ⟨hwrote, hle⟩ :=
    fold_visitRemoveVersion h.encodes_self (Nat.zero_le _) (h.scan hrewrite)
  rw [List.nil_append] at hwrote
  constructor
  · exact hwrote
  · rw [← hwrote]
    exact hle
  · intro e he
    exact h.encodes e (List.mem_filter.mp he).1
  · exact h.distinct.filter _

def Step.Encodes (json : JSON) (step : Step) : Prop :=
  ∀ entry, step = .publish entry → ∀ yanked, json.Encodes { entry with yanked := yanked }

theorem Holds.next (h : Holds json semver index es) (hsemver : semver.Preorder) {step : Step}
    (hstep : step.Encodes json) {index' : Option Bytes}
    (hnext : next json semver fold index step = .ok index') :
    Holds json semver index' (after es step) := by
  cases step with
  | publish entry =>
    obtain ⟨wrote, hrewrite, hreturn⟩ := bind_ok hnext
    cases hreturn
    exact h.next_publish (hstep entry rfl) hrewrite
  | yank version yanked =>
    obtain ⟨s, hrewrite, hreturn⟩ := bind_ok hnext
    cases hreturn
    exact h.next_yank hsemver hrewrite
  | remove version =>
    obtain ⟨s, hrewrite, hreturn⟩ := bind_ok hnext
    cases hreturn
    exact h.next_remove hrewrite

theorem Holds.run (history : List Step) (hsemver : semver.Preorder)
    (hjson : ∀ step ∈ history, step.Encodes json) {before : List Step} {index' : Option Bytes}
    (h : Holds json semver index (live before))
    (hrun : run json semver fold index history = .ok index') :
    Holds json semver index' (live (before ++ history)) := by
  induction history generalizing index before with
  | nil =>
    cases hrun
    rw [List.append_nil]
    exact h
  | cons step history ih =>
    obtain ⟨index₁, hnext, hrest⟩ := foldlM_cons_ok hrun
    have hstep := h.next hsemver (hjson step (List.mem_cons_self ..)) hnext
    rw [← live_append] at hstep
    have hlater := ih (fun s hs => hjson s (List.mem_cons_of_mem step hs)) hstep hrest
    rw [List.append_assoc, List.singleton_append] at hlater
    exact hlater

theorem holds_none : Holds json semver none (live []) :=
  ⟨rfl, Nat.zero_le _, nofun, List.Pairwise.nil⟩

def elsewhere (json : JSON) (step : Step) (line : Bytes) : Bool :=
  match json.unmarshal line with
  | none => true
  | some entry => entry.version != step.version

theorem Holds.elsewhere (h : Holds json semver index es) (step : Step) :
    (indexLines index).filter (elsewhere json step) =
      (es.filter fun e => e.version != step.version).map json.encode := by
  unfold indexLines
  rw [h.content, split_fileOf h.encodes_self, List.filter_map]
  apply congrArg
  apply List.filter_congr
  intro e he
  show Cargo.elsewhere json step (json.encode e) = _
  unfold Cargo.elsewhere
  rw [(h.encodes_self e he).unmarshal]

theorem after_elsewhere (es : List IndexEntry) (step : Step) :
    (after es step).filter (fun e => e.version != step.version) =
      es.filter fun e => e.version != step.version := by
  cases step with
  | publish entry =>
    rw [after, List.filter_append]
    simp [Step.version]
  | yank version yanked =>
    induction es with
    | nil => rfl
    | cons e es ih =>
      simp only [after, Step.version, List.map_cons, List.filter_cons] at ih ⊢
      rw [ih]
      by_cases heq : e.version = version
      · simp [heq]
      · simp [heq]
  | remove version =>
    rw [after, List.filter_filter]
    simp [Step.version]

/-- After every history of steps that succeed the index has one line for each version published and
not removed, in the order of publication, with the entry as published but for the last yank
state. -/
theorem index_history (json : JSON) (semver : Semver) (fold : Char → Char)
    (hsemver : semver.Preorder) (history : List Step)
    (hjson : ∀ step ∈ history, step.Encodes json) (index : Option Bytes)
    (hrun : run json semver fold none history = .ok index) :
    index.getD [] = Lines.join (indexLines index) ∧
      (indexLines index).map json.unmarshal = (live history).map some ∧
      (live history).Pairwise (fun e e' => sameVersion semver e.version e'.version = false) ∧
      ∀ before step later, history = before ++ step :: later → ∀ index₀ index₁,
        run json semver fold none before = .ok index₀ →
        next json semver fold index₀ step = .ok index₁ →
        (indexLines index₁).filter (elsewhere json step) =
          (indexLines index₀).filter (elsewhere json step) := by
  have h := holds_none.run history hsemver hjson hrun
  rw [List.nil_append] at h
  have hlines : indexLines index = (live history).map json.encode := by
    unfold indexLines
    rw [h.content, split_fileOf h.encodes_self]
  refine ⟨?_, ?_, h.distinct, ?_⟩
  · rw [hlines]
    exact h.content
  · rw [hlines, List.map_map]
    apply List.map_congr_left
    intro e he
    exact (h.encodes_self e he).unmarshal
  · intro before step later heq index₀ index₁ hbefore hnext
    have h₀ : Holds json semver index₀ (live ([] ++ before)) := by
      apply holds_none.run before hsemver _ hbefore
      intro s hs
      apply hjson s
      rw [heq]
      exact List.mem_append_left _ hs
    have hstep : step.Encodes json := by
      apply hjson step
      rw [heq]
      exact List.mem_append_right _ (List.mem_cons_self ..)
    have h₁ := h₀.next hsemver hstep hnext
    rw [h₁.elsewhere step, h₀.elsewhere step, after_elsewhere]

def utf8 (text : Text) : Bytes := text.map fun c => c.toNat.toUInt8

def crateEntry (version : Text) (yanked : Bool) : IndexEntry :=
  ⟨"demo".toList, version, [], [], [], yanked, none, [], none, 0⟩

def flag (yanked : Bool) : Text := if yanked then "true".toList else "false".toList

def plainText (entry : IndexEntry) : Text :=
  "\x7b\"name\":\"".toList ++ entry.name ++ "\",\"vers\":\"".toList ++ entry.version ++
    "\",\"deps\":[],\"cksum\":\"\",\"features\":\x7b\x7d,\"yanked\":".toList ++
    flag entry.yanked ++ ",\"links\":null\x7d".toList

def crateEntries : List IndexEntry :=
  [crateEntry "1.0.0".toList false, crateEntry "1.0.0".toList true,
    crateEntry "1.1.0".toList false, crateEntry "1.1.0".toList true]

def plainJSON : JSON where
  encode entry := utf8 (plainText entry)
  unmarshal line := crateEntries.find? fun entry => utf8 (plainText entry) == line
  unmarshalValidation line :=
    (crateEntries.find? fun entry => utf8 (plainText entry) == line).map
      fun entry => ⟨entry.name, entry.version⟩

def digitSemver : Semver where
  isValid _ := true
  compare v w := if v.takeWhile (· != '+') = w.takeWhile (· != '+') then 0 else 1

def crateHistory : List Step :=
  [.publish (crateEntry "1.0.0".toList false), .publish (crateEntry "1.1.0".toList false),
    .yank "1.0.0".toList true, .remove "1.1.0".toList]

theorem digitSemver_preorder : digitSemver.Preorder := by
  constructor
  · intro v
    exact if_pos rfl
  · intro v w h
    apply if_pos
    by_contra hne
    simp only [digitSemver, if_neg (Ne.symm hne)] at h
    cases h

theorem plainJSON_encodes {version : Text} (h : version ∈ ["1.0.0".toList, "1.1.0".toList])
    (yanked : Bool) : plainJSON.Encodes (crateEntry version yanked) := by
  have hfields : ∀ version ∈ ["1.0.0".toList, "1.1.0".toList], ∀ yanked,
      let entry := crateEntry version yanked
      (plainJSON.encode entry).head? = some 0x7b ∧ Lines.newline ∉ plainJSON.encode entry ∧
        Lines.carriageReturn ∉ plainJSON.encode entry ∧
        plainJSON.unmarshal (plainJSON.encode entry) = some entry ∧
        plainJSON.unmarshalValidation (plainJSON.encode entry) =
          some ⟨entry.name, entry.version⟩ := by
    decide +kernel
  obtain ⟨hobject, hline, hreturn, hunmarshal, hvalidation⟩ := hfields version h yanked
  exact ⟨hobject, hline, hreturn, hunmarshal, hvalidation⟩

theorem crateHistory_index :
    ∃ index, run plainJSON digitSemver id none crateHistory = .ok index ∧
      (indexLines index).map plainJSON.unmarshal = (live crateHistory).map some := by
  have hrun : run plainJSON digitSemver id none crateHistory =
      .ok (some (Lines.join [utf8 (plainText (crateEntry "1.0.0".toList true))])) := by
    decide +kernel
  have hjson : ∀ step ∈ crateHistory, step.Encodes plainJSON := by
    intro step hstep entry heq yanked
    rw [heq] at hstep
    simp only [crateHistory, List.mem_cons, Step.publish.injEq, reduceCtorEq, or_false,
      List.not_mem_nil] at hstep
    rcases hstep with rfl | rfl
    · exact plainJSON_encodes (List.mem_cons_self ..) yanked
    · exact plainJSON_encodes (List.mem_cons_of_mem _ (List.mem_cons_self ..)) yanked
  exact ⟨_, hrun, (index_history plainJSON digitSemver id digitSemver_preorder crateHistory hjson _
    hrun).2.1⟩

example : (live crateHistory).map (fun e => (e.version, e.yanked)) = [("1.0.0".toList, true)] := by
  decide

end RenoP.Cargo
