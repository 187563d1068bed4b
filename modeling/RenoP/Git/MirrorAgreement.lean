import RenoP.Git.UpstreamURL

/-!
# The address that a git mirror fetches

An address is an asset of a release, an archive of a tag, or what one part alone asks for.
-/

namespace RenoP.Git

inductive Address where
  | asset (tag file : Text)
  | archive (tag ext : Text)
  /-- an asset of the latest release at GitHub, the page of a release at GitLab -/
  | bare (part : Text)

def Address.tag (provider : Provider) : Address → Option Text
  | .asset tag _ => some tag
  | .archive tag _ => some tag
  | .bare part => match provider with
    | .github => none
    | .gitlab => some part

def Address.parts (provider : Provider) (upstreamRepo : Text) : Address → List Text
  | .asset tag file => match provider with
    | .github => [releases, download, tag, file]
    | .gitlab => [['-'], releases, tag, downloads, file]
  | .archive tag ext => match provider with
    | .github => [Git.archive, "refs".toList, "tags".toList, tag ++ ext]
    | .gitlab => [['-'], Git.archive, tag, upstreamRepo ++ '-' :: tag ++ ext]
  | .bare part => match provider with
    | .github => [releases, latest, download, part]
    | .gitlab => [['-'], releases, part]

def Engine.address (e : Engine) (owner upstreamRepo : Text) (a : Address) : Text :=
  joinParts (e.base :: owner :: upstreamRepo :: a.parts e.provider upstreamRepo)

def Address.Plain : Address → Prop
  | .asset tag _ => '/' ∉ tag
  | .archive tag ext => '/' ∉ tag ∧ (ext = zip ∨ ext = tarGz)
  | .bare part => '/' ∉ part

theorem joinParts_cons (x y : Text) (parts : List Text) :
    joinParts (x :: y :: parts) = x ++ '/' :: joinParts (y :: parts) := by
  unfold joinParts
  rw [List.intercalate_cons_cons, List.append_assoc, List.singleton_append]

theorem peel {x x' y y' : Text} {parts parts' : List Text} (hx : '/' ∉ x) (hx' : '/' ∉ x')
    (h : joinParts (x :: y :: parts) = joinParts (x' :: y' :: parts')) :
    x = x' ∧ joinParts (y :: parts) = joinParts (y' :: parts') := by
  rw [joinParts_cons, joinParts_cons] at h
  exact Nested.first_inj hx hx' h

theorem joinParts_singleton (x : Text) : joinParts [x] = x := List.intercalate_singleton

theorem ext_inj {s s' ext ext' : Text} (hext : ext = zip ∨ ext = tarGz)
    (hext' : ext' = zip ∨ ext' = tarGz) (h : s ++ ext = s' ++ ext') : s = s' ∧ ext = ext' := by
  have hne : zip ≠ [] ∧ tarGz ≠ [] ∧ zip.getLast? ≠ tarGz.getLast? := by decide +kernel
  have hlast := congrArg List.getLast? h
  rcases hext with rfl | rfl <;> rcases hext' with rfl | rfl
  · exact ⟨List.append_cancel_right h, rfl⟩
  · rw [List.getLast?_append_of_ne_nil _ hne.1, List.getLast?_append_of_ne_nil _ hne.2.1] at hlast
    exact absurd hlast hne.2.2
  · rw [List.getLast?_append_of_ne_nil _ hne.1, List.getLast?_append_of_ne_nil _ hne.2.1] at hlast
    exact absurd hlast.symm hne.2.2
  · exact ⟨List.append_cancel_right h, rfl⟩

theorem words_plain : '/' ∉ releases ∧ '/' ∉ download ∧ '/' ∉ Git.archive ∧ '/' ∉ latest ∧
    '/' ∉ ['-'] ∧ '/' ∉ "refs".toList ∧ '/' ∉ "tags".toList := by decide +kernel

theorem parts_inj_github {upstreamRepo : Text} {a a' : Address} (ha : a.Plain) (ha' : a'.Plain)
    (h : joinParts (a.parts .github upstreamRepo) = joinParts (a'.parts .github upstreamRepo)) :
    a = a' := by
  obtain ⟨hreleases, hdownload, harchive, hlatest, -, hrefs, htags⟩ := words_plain
  have hkinds : releases ≠ Git.archive ∧ download ≠ latest := by decide +kernel
  cases a with
  | asset tag file =>
    cases a' with
    | asset tag' file' =>
      obtain ⟨rfl, hfile⟩ := peel ha ha' (peel hdownload hdownload (peel hreleases hreleases h).2).2
      rw [joinParts_singleton, joinParts_singleton] at hfile
      rw [hfile]
    | archive tag' ext' => exact absurd (peel hreleases harchive h).1 hkinds.1
    | bare part' =>
      exact absurd (peel hdownload hlatest (peel hreleases hreleases h).2).1 hkinds.2
  | archive tag ext =>
    cases a' with
    | asset tag' file' => exact absurd (peel harchive hreleases h).1.symm hkinds.1
    | archive tag' ext' =>
      have hname := (peel htags htags (peel hrefs hrefs (peel harchive harchive h).2).2).2
      rw [joinParts_singleton, joinParts_singleton] at hname
      obtain ⟨rfl, rfl⟩ := ext_inj ha.2 ha'.2 hname
      rfl
    | bare part' => exact absurd (peel harchive hreleases h).1.symm hkinds.1
  | bare part =>
    cases a' with
    | asset tag' file' =>
      exact absurd (peel hlatest hdownload (peel hreleases hreleases h).2).1.symm hkinds.2
    | archive tag' ext' => exact absurd (peel hreleases harchive h).1 hkinds.1
    | bare part' =>
      have hpart := (peel hdownload hdownload (peel hlatest hlatest (peel hreleases hreleases h).2).2).2
      rw [joinParts_singleton, joinParts_singleton] at hpart
      rw [hpart]

theorem parts_inj_gitlab {upstreamRepo : Text} {a a' : Address} (ha : a.Plain) (ha' : a'.Plain)
    (h : joinParts (a.parts .gitlab upstreamRepo) = joinParts (a'.parts .gitlab upstreamRepo)) :
    a = a' := by
  obtain ⟨hreleases, hdownload, harchive, -, hdash, -, -⟩ := words_plain
  have hkinds : releases ≠ Git.archive := by decide +kernel
  -- a page has no slash after the tag
  have hpage : ∀ {tag file part : Text}, '/' ∉ part →
      joinParts [tag, downloads, file] ≠ joinParts [part] := by
    intro tag file part hpart heq
    rw [joinParts_singleton, joinParts_cons] at heq
    exact hpart (heq ▸ List.mem_append_right _ (List.mem_cons_self ..))
  cases a with
  | asset tag file =>
    cases a' with
    | asset tag' file' =>
      have htag := (peel hreleases hreleases (peel hdash hdash h).2).2
      obtain ⟨rfl, hfile⟩ := peel ha ha' htag
      rw [joinParts_cons, joinParts_cons, List.append_cancel_left_eq, joinParts_singleton,
        joinParts_singleton] at hfile
      rw [(List.cons.inj hfile).2]
    | archive tag' ext' => exact absurd (peel hreleases harchive (peel hdash hdash h).2).1 hkinds
    | bare part' => exact absurd (peel hreleases hreleases (peel hdash hdash h).2).2 (hpage ha')
  | archive tag ext =>
    cases a' with
    | asset tag' file' =>
      exact absurd (peel harchive hreleases (peel hdash hdash h).2).1.symm hkinds
    | archive tag' ext' =>
      have htag := (peel harchive harchive (peel hdash hdash h).2).2
      obtain ⟨rfl, hname⟩ := peel ha.1 ha'.1 htag
      rw [joinParts_singleton, joinParts_singleton] at hname
      rw [(ext_inj ha.2 ha'.2 hname).2]
    | bare part' => exact absurd (peel harchive hreleases (peel hdash hdash h).2).1.symm hkinds
  | bare part =>
    cases a' with
    | asset tag' file' =>
      exact absurd (peel hreleases hreleases (peel hdash hdash h).2).2.symm (hpage ha)
    | archive tag' ext' => exact absurd (peel hreleases harchive (peel hdash hdash h).2).1 hkinds
    | bare part' =>
      have hpart := (peel hreleases hreleases (peel hdash hdash h).2).2
      rw [joinParts_singleton, joinParts_singleton] at hpart
      rw [hpart]

theorem address_inj {e : Engine} {owner upstreamRepo : Text} {a a' : Address} (ha : a.Plain)
    (ha' : a'.Plain) (h : e.address owner upstreamRepo a = e.address owner upstreamRepo a') :
    a = a' := by
  unfold Engine.address at h
  rw [joinParts_cons, joinParts_cons, joinParts_cons e.base, joinParts_cons owner] at h
  have howner := (List.cons.inj (List.append_cancel_left h)).2
  have hne : ∀ a : Address, ∃ x parts, a.parts e.provider upstreamRepo = x :: parts := by
    intro a
    cases e.provider <;> cases a <;> exact ⟨_, _, rfl⟩
  obtain ⟨x, parts, hx⟩ := hne a
  obtain ⟨x', parts', hx'⟩ := hne a'
  rw [hx, hx', joinParts_cons, joinParts_cons upstreamRepo] at howner
  have hrest := (List.cons.inj (List.append_cancel_left
    (List.cons.inj (List.append_cancel_left howner)).2)).2
  rw [← hx, ← hx'] at hrest
  cases hprovider : e.provider with
  | github =>
    rw [hprovider] at hrest
    exact parts_inj_github ha ha' hrest
  | gitlab =>
    rw [hprovider] at hrest
    exact parts_inj_gitlab ha ha' hrest

def endsArchive (s : Text) : Prop := zip <:+ s ∨ tarGz <:+ s

instance (s : Text) : Decidable (endsArchive s) := inferInstanceAs (Decidable (_ ∨ _))

def servedFile (provider : Provider) (first : Text) : List Text → Address
  | [] => .bare first
  | [file] => .asset first file
  | tag :: second :: file =>
    if provider = .github ∧ first = download then .asset tag (joinParts (second :: file))
    else .asset first (joinParts (tag :: second :: file))

/-- The address that is made for the parts after `releases`. -/
def served (provider : Provider) : List Text → Address
  | [] => .bare []
  | first :: rest =>
    if endsArchive (joinParts (first :: rest)) then
      .archive (archiveTag (first :: rest)) (archiveExt (joinParts (first :: rest)))
    else servedFile provider first rest

theorem resolve_eq (e : Engine) (owner upstreamRepo : Text) {remainder : List Text}
    (hne : remainder ≠ []) :
    e.resolveGitUpstreamURL owner upstreamRepo releases remainder =
      some (e.address owner upstreamRepo (served e.provider remainder)) := by
  obtain ⟨first, rest, rfl⟩ := List.exists_cons_of_ne_nil hne
  have hactions : releases ≠ actions := by decide +kernel
  unfold Engine.resolveGitUpstreamURL Engine.address
  dsimp only
  rw [if_neg hactions]
  by_cases harchive : endsArchive (joinParts (first :: rest))
  · have hserved : served e.provider (first :: rest) =
        .archive (archiveTag (first :: rest)) (archiveExt (joinParts (first :: rest))) :=
      if_pos harchive
    unfold endsArchive at harchive
    rw [if_pos harchive, hserved]
    cases e.provider <;> rfl
  · have hplain := harchive
    unfold endsArchive at hplain
    rw [if_neg hplain]
    unfold served
    dsimp only
    rw [if_neg harchive]
    unfold servedFile
    match rest with
    | [] => cases e.provider <;> rfl
    | [file] =>
      cases e.provider with
      | github => rfl
      | gitlab =>
        dsimp only
        rw [joinParts_singleton]
        rfl
    | tag :: second :: file =>
      cases e.provider with
      | github =>
        dsimp only
        by_cases hdownload : first = download
        · rw [if_pos hdownload, if_pos ⟨rfl, hdownload⟩]
          rfl
        · rw [if_neg hdownload, if_neg fun h => hdownload h.2]
          rfl
      | gitlab => rfl

theorem suffix_last {ending a b : Text} (hending : '/' ∉ ending) :
    ending <:+ a ++ '/' :: b ↔ ending <:+ b := by
  have hb : b <:+ a ++ '/' :: b := ⟨a ++ ['/'], by simp⟩
  refine ⟨fun h => ?_, fun h => h.trans hb⟩
  by_cases hlength : ending.length ≤ b.length
  · exact List.suffix_of_suffix_length_le h hb hlength
  · have hlong : '/' :: b <:+ ending :=
      List.suffix_of_suffix_length_le ⟨a, rfl⟩ h (by rw [List.length_cons]; omega)
    exact absurd (hlong.subset (List.mem_cons_self ..)) hending

theorem suffix_joinParts {ending : Text} (hending : '/' ∉ ending) (first : Text)
    (rest : List Text) : ending <:+ joinParts (first :: rest) ↔
      ending <:+ (first :: rest).getLast (List.cons_ne_nil _ _) := by
  induction rest generalizing first with
  | nil => rw [joinParts_singleton, List.getLast_singleton]
  | cons second rest ih =>
    rw [joinParts_cons, suffix_last hending, ih, List.getLast_cons (List.cons_ne_nil _ _)]

theorem zip_plain : '/' ∉ zip ∧ '/' ∉ tarGz := by decide +kernel

theorem endsArchive_joinParts (first : Text) (rest : List Text) :
    endsArchive (joinParts (first :: rest)) ↔
      endsArchive ((first :: rest).getLast (List.cons_ne_nil _ _)) := by
  unfold endsArchive
  rw [suffix_joinParts zip_plain.1, suffix_joinParts zip_plain.2]

theorem archiveExt_joinParts (first : Text) (rest : List Text) :
    archiveExt (joinParts (first :: rest)) =
      archiveExt ((first :: rest).getLast (List.cons_ne_nil _ _)) := by
  unfold archiveExt
  exact if_congr (suffix_joinParts zip_plain.2 first rest) rfl rfl

theorem trimSuffix_append (s ending : Text) : trimSuffix (s ++ ending) ending = s := by
  unfold trimSuffix
  rw [if_pos (List.suffix_append s ending), List.length_append, Nat.add_sub_cancel,
    List.take_left]

theorem trimSuffix_of_not {s ending : Text} (h : ¬ending <:+ s) : trimSuffix s ending = s := if_neg h

theorem not_zip_and_tarGz {s : Text} (h : tarGz <:+ s) : ¬zip <:+ s := by
  rintro ⟨a, ha⟩
  obtain ⟨b, hb⟩ := h
  exact absurd (ext_inj (Or.inl rfl) (Or.inr rfl) (ha.trans hb.symm)).2 (by decide +kernel)

theorem stripArchive_of_not {s : Text} (h : ¬endsArchive s) : stripArchive s = s := by
  unfold endsArchive at h
  rw [not_or] at h
  unfold stripArchive
  rw [trimSuffix_of_not h.1, trimSuffix_of_not h.2]

theorem slash_stripArchive {s : Text} (h : '/' ∉ s) : '/' ∉ stripArchive s := by
  have htrim : ∀ (s ending : Text), trimSuffix s ending ⊆ s := by
    intro s ending
    unfold trimSuffix
    split_ifs
    · exact List.take_subset _ _
    · exact List.Subset.refl _
  exact fun hmem => h (htrim _ _ (htrim _ _ hmem))

theorem archive_name {s ext : Text} (hext : ext = zip ∨ ext = tarGz) :
    (stripArchive (s ++ ext) = s ∧ archiveExt (s ++ ext) = ext) ↔
      ¬tarGz ++ zip <:+ s ++ ext := by
  have hlong : tarGz ++ zip <:+ s ++ zip ↔ tarGz <:+ s := by
    refine ⟨fun ⟨a, ha⟩ => ⟨a, ?_⟩, fun ⟨a, ha⟩ => ⟨a, ?_⟩⟩
    · rw [← List.append_assoc] at ha
      exact List.append_cancel_right ha
    · rw [← List.append_assoc, ha]
  rcases hext with rfl | rfl
  · have hzip : ¬tarGz <:+ s ++ zip := fun h => not_zip_and_tarGz h (List.suffix_append s zip)
    unfold stripArchive archiveExt
    rw [trimSuffix_append, if_neg hzip, hlong]
    refine ⟨fun h hends => ?_, fun h => ⟨trimSuffix_of_not h, rfl⟩⟩
    obtain ⟨a, rfl⟩ := hends
    rw [trimSuffix_append] at h
    exact absurd (List.self_eq_append_right.mp h.1) (by decide +kernel)
  · have htar : tarGz <:+ s ++ tarGz := List.suffix_append s tarGz
    unfold stripArchive archiveExt
    rw [trimSuffix_of_not (not_zip_and_tarGz htar), trimSuffix_append, if_pos htar]
    refine ⟨fun _ h => not_zip_and_tarGz htar ((List.suffix_append tarGz zip).trans h),
      fun _ => ⟨rfl, rfl⟩⟩

/-- An asset of a tag: `tag/f` or `download/tag/f`. -/
def AsksAsset (remainder : List Text) (tag : Text) (file : List Text) : Prop :=
  file ≠ [] ∧ tag ≠ download ∧ tag ≠ Git.archive ∧
    (remainder = tag :: file ∨ remainder = download :: tag :: file)

/-- An archive of a tag: `tag.zip` or `archive/.../tag.zip`. -/
def AsksArchive (remainder : List Text) (tag ext : Text) : Prop :=
  (ext = zip ∨ ext = tarGz) ∧
    (remainder = [tag ++ ext] ∨ ∃ parts, remainder = Git.archive :: parts ++ [tag ++ ext])

/-- The address is that of what was asked for, and a tag that it names has been checked. -/
structure Fulfilled (e : Engine) (relative owner upstreamRepo : Text) (remainder : List Text) :
    Prop where
  asset : ∀ tag file, AsksAsset remainder tag file →
    e.resolveGitUpstreamURL owner upstreamRepo releases remainder =
      some (e.address owner upstreamRepo (.asset tag (joinParts file)))
  archive : ∀ tag ext, AsksArchive remainder tag ext →
    e.resolveGitUpstreamURL owner upstreamRepo releases remainder =
      some (e.address owner upstreamRepo (.archive tag ext))
  locked : ∀ a : Address, a.Plain →
    e.resolveGitUpstreamURL owner upstreamRepo releases remainder =
      some (e.address owner upstreamRepo a) →
    ∀ tag, a.tag e.provider = some tag → (owner ++ '/' :: upstreamRepo, tag) ∈ e.checks relative

theorem archiveTag_plain {remainder : List Text} (h : ∀ part ∈ remainder, '/' ∉ part) :
    '/' ∉ archiveTag remainder := by
  unfold archiveTag
  split
  · refine slash_stripArchive ?_
    split_ifs
    · exact h _ (List.mem_cons_of_mem _ (List.getLast_mem _))
    · exact h _ (List.mem_cons_self ..)
  · exact slash_stripArchive (h _ (List.mem_cons_self ..))
  · exact List.not_mem_nil

theorem served_plain {provider : Provider} {remainder : List Text}
    (h : ∀ part ∈ remainder, '/' ∉ part) : (served provider remainder).Plain := by
  unfold served
  split
  · exact List.not_mem_nil
  · rename_i first rest
    have hfirst := h first (List.mem_cons_self ..)
    by_cases hends : endsArchive (joinParts (first :: rest))
    · rw [if_pos hends]
      refine ⟨archiveTag_plain h, ?_⟩
      unfold archiveExt
      split_ifs
      · exact Or.inr rfl
      · exact Or.inl rfl
    · rw [if_neg hends]
      match rest with
      | [] => exact hfirst
      | [_] => exact hfirst
      | tag :: second :: file =>
        unfold servedFile
        split_ifs
        · exact h tag (List.mem_cons_of_mem _ (List.mem_cons_self ..))
        · exact hfirst

section

variable {e : Engine} {relative owner upstreamRepo action : Text} {remainder : List Text}

theorem resolve_iff (hne : remainder ≠ []) (hplain : ∀ part ∈ remainder, '/' ∉ part)
    {a : Address} (ha : a.Plain) :
    e.resolveGitUpstreamURL owner upstreamRepo releases remainder =
      some (e.address owner upstreamRepo a) ↔ served e.provider remainder = a := by
  rw [resolve_eq e owner upstreamRepo hne]
  refine ⟨fun h => address_inj (served_plain hplain) ha (Option.some.inj h), fun h => by rw [h]⟩

theorem mem_checks (hparts : requestParts relative = owner :: upstreamRepo :: action :: remainder)
    (haction : action.map e.toLower = releases) {tag : Text} :
    (owner ++ '/' :: upstreamRepo, tag) ∈ e.checks relative ↔
      tag = [] ∨ tag = lockVersion releases remainder := by
  unfold Engine.checks
  rw [hparts]
  dsimp only
  rw [haction]
  unfold lockTargets
  split_ifs with hnone
  · rw [hnone]
    simp
  · simp

theorem fulfilled_iff
    (hparts : requestParts relative = owner :: upstreamRepo :: action :: remainder)
    (haction : action.map e.toLower = releases) (hne : remainder ≠ []) :
    Fulfilled e relative owner upstreamRepo remainder ↔
      (∀ tag file, AsksAsset remainder tag file →
        served e.provider remainder = .asset tag (joinParts file)) ∧
      (∀ tag ext, AsksArchive remainder tag ext → served e.provider remainder = .archive tag ext) ∧
      ∀ tag, (served e.provider remainder).tag e.provider = some tag →
        tag = [] ∨ tag = lockVersion releases remainder := by
  have hplain : ∀ part ∈ remainder, '/' ∉ part := by
    intro part hpart
    refine SlashPath.comps_noSlash (SlashPath.clean (trimSlashes relative)) part ?_
    change part ∈ requestParts relative
    rw [hparts]
    exact List.mem_cons_of_mem _ (List.mem_cons_of_mem _ (List.mem_cons_of_mem _ hpart))
  have hasset : ∀ tag file, AsksAsset remainder tag file →
      (Address.asset tag (joinParts file)).Plain := by
    rintro tag file ⟨-, -, -, rfl | rfl⟩
    · exact hplain tag (List.mem_cons_self ..)
    · exact hplain tag (List.mem_cons_of_mem _ (List.mem_cons_self ..))
  have harchive : ∀ tag ext, AsksArchive remainder tag ext → (Address.archive tag ext).Plain := by
    rintro tag ext ⟨hext, hshape⟩
    refine ⟨fun hmem => hplain (tag ++ ext) ?_ (List.mem_append_left _ hmem), hext⟩
    rcases hshape with rfl | ⟨parts, rfl⟩
    · exact List.mem_singleton_self _
    · exact List.mem_append_right _ (List.mem_singleton_self _)
  constructor
  · intro h
    refine ⟨fun tag file hasks => ?_, fun tag ext hasks => ?_, fun tag htag => ?_⟩
    · exact (resolve_iff hne hplain (hasset tag file hasks)).mp (h.asset tag file hasks)
    · exact (resolve_iff hne hplain (harchive tag ext hasks)).mp (h.archive tag ext hasks)
    · exact (mem_checks hparts haction).mp
        (h.locked _ (served_plain hplain) (resolve_eq e owner upstreamRepo hne) tag htag)
  · rintro ⟨h₁, h₂, h₃⟩
    refine ⟨fun tag file hasks => ?_, fun tag ext hasks => ?_, fun a ha hurl tag htag => ?_⟩
    · exact (resolve_iff hne hplain (hasset tag file hasks)).mpr (h₁ tag file hasks)
    · exact (resolve_iff hne hplain (harchive tag ext hasks)).mpr (h₂ tag ext hasks)
    · rw [← (resolve_iff hne hplain ha).mp hurl] at htag
      exact (mem_checks hparts haction).mpr (h₃ tag htag)

end

/-- The requests that are read the same way twice. An asset's file name does not end like an
archive, nor does its tag; the tag of an archive does not end in `.tar.gz` where the archive ends
in `.zip`; the word `download` is followed by a tag and a file, at GitHub only; the word `archive`
is followed by an archive. -/
def Agrees (provider : Provider) : List Text → Prop
  | [] => True
  | [part] => ¬tarGz ++ zip <:+ part
  | first :: second :: rest =>
    let last := (second :: rest).getLast (List.cons_ne_nil _ _)
    if first = Git.archive then
      if endsArchive last then ¬tarGz ++ zip <:+ last else last = Git.archive
    else if first = download then
      if rest = [] then stripArchive second = download
      else if second = download then True
      else provider = .github ∧ ¬endsArchive last ∧
        (second ≠ Git.archive → stripArchive second = second)
    else ¬endsArchive last ∧ stripArchive first = first

theorem archive_of_ends {s : Text} (h : endsArchive s) :
    ∃ tag ext, (ext = zip ∨ ext = tarGz) ∧ s = tag ++ ext := by
  rcases h with ⟨tag, rfl⟩ | ⟨tag, rfl⟩
  · exact ⟨tag, zip, Or.inl rfl, rfl⟩
  · exact ⟨tag, tarGz, Or.inr rfl, rfl⟩

theorem ends_of_archive {tag ext : Text} (hext : ext = zip ∨ ext = tarGz) :
    endsArchive (tag ++ ext) := by
  rcases hext with rfl | rfl
  · exact Or.inl (List.suffix_append tag zip)
  · exact Or.inr (List.suffix_append tag tarGz)

theorem archive_read_iff {s : Text} (hs : endsArchive s) :
    (∀ tag ext, (ext = zip ∨ ext = tarGz) → s = tag ++ ext →
      Address.archive (stripArchive s) (archiveExt s) = .archive tag ext) ↔
      ¬tarGz ++ zip <:+ s := by
  constructor
  · intro h
    obtain ⟨tag, ext, hext, rfl⟩ := archive_of_ends hs
    obtain ⟨htag, hsame⟩ := Address.archive.inj (h tag ext hext rfl)
    exact (archive_name hext).mp ⟨htag, hsame⟩
  · rintro h tag ext hext rfl
    obtain ⟨htag, hsame⟩ := (archive_name hext).mpr h
    rw [htag, hsame]

theorem asksArchive_iff {first second tag ext : Text} {rest : List Text} :
    AsksArchive (first :: second :: rest) tag ext ↔ (ext = zip ∨ ext = tarGz) ∧
      first = Git.archive ∧ (second :: rest).getLast (List.cons_ne_nil _ _) = tag ++ ext := by
  unfold AsksArchive
  refine and_congr_right fun _ => ⟨?_, ?_⟩
  · rintro (h | ⟨parts, h⟩)
    · cases h
    · obtain ⟨rfl, hrest⟩ := List.cons.inj h
      exact ⟨rfl, (List.getLast_congr _ (by simp) hrest).trans List.getLast_concat⟩
  · rintro ⟨rfl, hlast⟩
    right
    refine ⟨(second :: rest).dropLast, ?_⟩
    rw [List.cons_append, ← hlast, List.dropLast_append_getLast]

theorem checked_tag {tag s : Text} (htag : tag ≠ []) : tag = [] ∨ tag = s ↔ s = tag :=
  ⟨fun h => (h.resolve_left htag).symm, fun h => Or.inr h.symm⟩

theorem checked_self (s : Text) : s = [] ∨ s = stripArchive s ↔ stripArchive s = s := by
  refine ⟨?_, fun h => Or.inr h.symm⟩
  rintro (rfl | h)
  · decide
  · exact h.symm

section

variable {provider : Provider} {first second : Text} {rest : List Text}

theorem served_ends (h : endsArchive ((second :: rest).getLast (List.cons_ne_nil _ _))) :
    served provider (first :: second :: rest) = .archive
      (stripArchive (if first = Git.archive then (second :: rest).getLast (List.cons_ne_nil _ _)
        else first)) (archiveExt ((second :: rest).getLast (List.cons_ne_nil _ _))) := by
  have hlast : (first :: second :: rest).getLast (List.cons_ne_nil _ _) =
      (second :: rest).getLast (List.cons_ne_nil _ _) := List.getLast_cons (List.cons_ne_nil _ _)
  unfold served
  dsimp only
  rw [if_pos ((endsArchive_joinParts first (second :: rest)).mpr (hlast ▸ h)),
    archiveExt_joinParts, hlast]
  rfl

theorem served_file (h : ¬endsArchive ((second :: rest).getLast (List.cons_ne_nil _ _))) :
    served provider (first :: second :: rest) = servedFile provider first (second :: rest) := by
  have hlast : (first :: second :: rest).getLast (List.cons_ne_nil _ _) =
      (second :: rest).getLast (List.cons_ne_nil _ _) := List.getLast_cons (List.cons_ne_nil _ _)
  exact if_neg fun hends => h (hlast ▸ (endsArchive_joinParts first (second :: rest)).mp hends)

theorem servedFile_first (h : first ≠ download ∨ provider ≠ .github ∨ rest = []) :
    servedFile provider first (second :: rest) = .asset first (joinParts (second :: rest)) := by
  unfold servedFile
  match rest with
  | [] => rw [joinParts_singleton]
  | third :: rest =>
    refine if_neg fun hboth => ?_
    rcases h with h | h | h
    · exact h hboth.2
    · exact h hboth.1
    · cases h

end

def Reads (provider : Provider) (remainder : List Text) : Prop :=
  (∀ tag file, AsksAsset remainder tag file →
    served provider remainder = .asset tag (joinParts file)) ∧
  (∀ tag ext, AsksArchive remainder tag ext → served provider remainder = .archive tag ext) ∧
  ∀ tag, (served provider remainder).tag provider = some tag →
    tag = [] ∨ tag = lockVersion releases remainder

theorem reads_single (provider : Provider) (part : Text) :
    Reads provider [part] ↔ ¬tarGz ++ zip <:+ part := by
  have hversion : lockVersion releases [part] = stripArchive part := rfl
  have hasset : ∀ tag file, ¬AsksAsset [part] tag file := by
    rintro tag file ⟨hne, -, -, h | h⟩
    · exact hne (List.cons.inj h).2.symm
    · cases h
  have hasks : ∀ tag ext, AsksArchive [part] tag ext ↔
      (ext = zip ∨ ext = tarGz) ∧ part = tag ++ ext := by
    refine fun tag ext => and_congr_right fun _ => ⟨?_, fun h => Or.inl (by rw [h])⟩
    rintro (h | ⟨parts, h⟩)
    · exact (List.cons.inj h).1
    · have hlength := congrArg List.length h
      simp at hlength
  unfold Reads
  rw [hversion]
  by_cases hends : endsArchive part
  · have hserved : served provider [part] = .archive (stripArchive part) (archiveExt part) := by
      have hpos : endsArchive (joinParts [part]) := by rwa [joinParts_singleton]
      unfold served
      dsimp only
      rw [if_pos hpos, joinParts_singleton]
      rfl
    rw [hserved, ← archive_read_iff hends]
    refine ⟨fun h tag ext hext hpart => h.2.1 tag ext ((hasks tag ext).mpr ⟨hext, hpart⟩),
      fun h => ⟨fun tag file hfile => absurd hfile (hasset tag file), fun tag ext hask => ?_, ?_⟩⟩
    · exact h tag ext ((hasks tag ext).mp hask).1 ((hasks tag ext).mp hask).2
    · rintro tag ⟨⟩
      exact Or.inr rfl
  · have hserved : served provider [part] = .bare part :=
      if_neg fun h => hends (joinParts_singleton part ▸ h)
    rw [hserved, stripArchive_of_not hends]
    refine ⟨fun _ h => hends (Or.inl ((List.suffix_append tarGz zip).trans h)),
      fun _ => ⟨fun tag file hfile => absurd hfile (hasset tag file), fun tag ext hask => ?_, ?_⟩⟩
    · obtain ⟨hext, rfl⟩ := (hasks tag ext).mp hask
      exact absurd (ends_of_archive hext) hends
    · intro tag htag
      cases provider with
      | github => cases htag
      | gitlab =>
        cases htag
        exact Or.inr rfl

section

variable {provider : Provider} {first second : Text} {rest : List Text}

theorem reads_archive : Reads provider (Git.archive :: second :: rest) ↔
    Agrees provider (Git.archive :: second :: rest) := by
  have hne : Git.archive ≠ [] ∧ Git.archive ≠ download := by decide +kernel
  have hversion : lockVersion releases (Git.archive :: second :: rest) =
      stripArchive ((second :: rest).getLast (List.cons_ne_nil _ _)) := by
    unfold lockVersion
    dsimp only
    rw [if_pos rfl, if_neg hne.2, if_pos rfl]
  have hasset : ∀ tag file, ¬AsksAsset (Git.archive :: second :: rest) tag file := by
    rintro tag file ⟨-, -, harchive, h | h⟩
    · exact harchive (List.cons.inj h).1.symm
    · exact hne.2 (List.cons.inj h).1
  unfold Reads Agrees
  dsimp only
  rw [hversion, if_pos rfl]
  by_cases hends : endsArchive ((second :: rest).getLast (List.cons_ne_nil _ _))
  · rw [if_pos hends, served_ends hends, if_pos rfl, ← archive_read_iff hends]
    refine ⟨fun h tag ext hext hlast => h.2.1 tag ext (asksArchive_iff.mpr ⟨hext, rfl, hlast⟩),
      fun h => ⟨fun tag file hfile => absurd hfile (hasset tag file), fun tag ext hask => ?_, ?_⟩⟩
    · obtain ⟨hext, -, hlast⟩ := asksArchive_iff.mp hask
      exact h tag ext hext hlast
    · rintro tag ⟨⟩
      exact Or.inr rfl
  · rw [if_neg hends, served_file hends, servedFile_first (Or.inl hne.2), stripArchive_of_not hends,
      ← checked_tag hne.1]
    refine ⟨fun h => h.2.2 _ rfl,
      fun h => ⟨fun tag file hfile => absurd hfile (hasset tag file), fun tag ext hask => ?_, ?_⟩⟩
    · obtain ⟨hext, -, hlast⟩ := asksArchive_iff.mp hask
      exact absurd (hlast ▸ ends_of_archive hext) hends
    · rintro tag ⟨⟩
      exact h

theorem served_download (h : endsArchive ((second :: rest).getLast (List.cons_ne_nil _ _)) ∨
    provider ≠ .github ∨ rest = []) :
    (served provider (download :: second :: rest)).tag provider = some download := by
  have hne : download ≠ Git.archive := by decide +kernel
  have hstrip : stripArchive download = download := by decide +kernel
  by_cases hends : endsArchive ((second :: rest).getLast (List.cons_ne_nil _ _))
  · rw [served_ends hends, if_neg hne, hstrip]
    rfl
  · rw [served_file hends, servedFile_first (Or.inr (h.resolve_left hends))]
    rfl

theorem reads_download : Reads provider (download :: second :: rest) ↔
    Agrees provider (download :: second :: rest) := by
  have hne : download ≠ [] ∧ download ≠ Git.archive := by decide +kernel
  have hwords : stripArchive download = download ∧ stripArchive Git.archive = Git.archive := by
    decide +kernel
  have hversion : lockVersion releases (download :: second :: rest) = stripArchive second := by
    unfold lockVersion
    dsimp only
    rw [if_pos rfl, if_pos rfl]
  have harchive : ∀ tag ext, ¬AsksArchive (download :: second :: rest) tag ext :=
    fun tag ext hask => hne.2 (asksArchive_iff.mp hask).2.1
  have hasset : ∀ tag file, AsksAsset (download :: second :: rest) tag file ↔
      rest ≠ [] ∧ second ≠ download ∧ second ≠ Git.archive ∧ tag = second ∧ file = rest := by
    refine fun tag file => ⟨?_, ?_⟩
    · rintro ⟨hfile, hdownload, hplain, h | h⟩
      · exact absurd (List.cons.inj h).1.symm hdownload
      · obtain ⟨rfl, rfl⟩ := List.cons.inj (List.cons.inj h).2
        exact ⟨hfile, hdownload, hplain, rfl, rfl⟩
    · rintro ⟨hfile, hdownload, hplain, rfl, rfl⟩
      exact ⟨hfile, hdownload, hplain, Or.inr rfl⟩
  have hreads : Reads provider (download :: second :: rest) ↔
      (rest ≠ [] ∧ second ≠ download ∧ second ≠ Git.archive →
        served provider (download :: second :: rest) = .asset second (joinParts rest)) ∧
      ∀ tag, (served provider (download :: second :: rest)).tag provider = some tag →
        tag = [] ∨ tag = stripArchive second := by
    unfold Reads
    rw [hversion]
    refine ⟨fun h => ⟨fun hshape => h.1 _ _ ((hasset _ _).mpr ⟨hshape.1, hshape.2.1, hshape.2.2,
      rfl, rfl⟩), h.2.2⟩, fun h => ⟨fun tag file hask => ?_, fun tag ext hask =>
      absurd hask (harchive tag ext), h.2⟩⟩
    obtain ⟨hrest, hdownload, hplain, rfl, rfl⟩ := (hasset tag file).mp hask
    exact h.1 ⟨hrest, hdownload, hplain⟩
  have htag : ∀ {a : Address}, a.tag provider = some download →
      ((∀ tag, a.tag provider = some tag → tag = [] ∨ tag = stripArchive second) ↔
        stripArchive second = download) := by
    intro a ha
    rw [ha, ← checked_tag hne.1]
    exact ⟨fun h => h _ rfl, fun h tag heq => Option.some.inj heq ▸ h⟩
  rw [hreads]
  unfold Agrees
  dsimp only
  rw [if_neg hne.2, if_pos rfl]
  by_cases hrest : rest = []
  · rw [if_pos hrest]
    rw [htag (served_download (Or.inr (Or.inr hrest)))]
    exact ⟨fun h => h.2, fun h => ⟨fun hshape => absurd hrest hshape.1, h⟩⟩
  · rw [if_neg hrest]
    by_cases hword : endsArchive ((second :: rest).getLast (List.cons_ne_nil _ _)) ∨
        provider ≠ .github
    · have hserved := served_download (hword.imp_right Or.inl)
      rw [htag hserved]
      split_ifs with hsecond
      · rw [hsecond]
        exact ⟨fun _ => trivial, fun _ => ⟨fun hshape => absurd rfl hshape.2.1, hwords.1⟩⟩
      · refine ⟨fun h => ?_, fun h => absurd hword (not_or.mpr ⟨h.2.1, not_not.mpr h.1⟩)⟩
        by_cases hkey : second = Git.archive
        · rw [hkey, hwords.2] at h
          exact absurd h.2.symm hne.2
        · rw [h.1 ⟨hrest, hsecond, hkey⟩] at hserved
          exact absurd (Option.some.inj hserved) hsecond
    · rw [not_or, not_not] at hword
      obtain ⟨hends, rfl⟩ := hword
      obtain ⟨third, rest, rfl⟩ := List.exists_cons_of_ne_nil hrest
      have hserved : served .github (download :: second :: third :: rest) =
          .asset second (joinParts (third :: rest)) := by
        rw [served_file hends]
        unfold servedFile
        dsimp only
        rw [if_pos ⟨rfl, rfl⟩]
      have hsame : (∀ tag, (Address.asset second (joinParts (third :: rest))).tag .github = some tag →
          tag = [] ∨ tag = stripArchive second) ↔ stripArchive second = second := by
        rw [← checked_self]
        exact ⟨fun h => h _ rfl, fun h tag heq => Option.some.inj heq ▸ h⟩
      rw [hserved, hsame]
      split_ifs with hsecond
      · rw [hsecond]
        exact ⟨fun _ => trivial, fun _ => ⟨fun hshape => absurd rfl hshape.2.1, hwords.1⟩⟩
      · refine ⟨fun h => ⟨rfl, hends, fun _ => h.2⟩, fun h => ⟨fun _ => rfl, ?_⟩⟩
        by_cases hkey : second = Git.archive
        · rw [hkey, hwords.2]
        · exact h.2.2 hkey

theorem reads_tag (harchive : first ≠ Git.archive) (hdownload : first ≠ download) :
    Reads provider (first :: second :: rest) ↔ Agrees provider (first :: second :: rest) := by
  have hversion : lockVersion releases (first :: second :: rest) = stripArchive first := by
    unfold lockVersion
    dsimp only
    rw [if_pos rfl, if_neg hdownload, if_neg harchive]
  have hasset : AsksAsset (first :: second :: rest) first (second :: rest) :=
    ⟨List.cons_ne_nil _ _, hdownload, harchive, Or.inl rfl⟩
  unfold Reads Agrees
  dsimp only
  rw [hversion, if_neg harchive, if_neg hdownload]
  by_cases hends : endsArchive ((second :: rest).getLast (List.cons_ne_nil _ _))
  · rw [served_ends hends]
    exact ⟨fun h => absurd (h.1 _ _ hasset) nofun, fun h => absurd hends h.1⟩
  · rw [served_file hends, servedFile_first (Or.inl hdownload), ← checked_self]
    refine ⟨fun h => ⟨hends, h.2.2 _ rfl⟩, fun h => ⟨?_, fun tag ext hask => ?_, ?_⟩⟩
    · rintro tag file ⟨-, -, -, hshape | hshape⟩
      · obtain ⟨rfl, rfl⟩ := List.cons.inj hshape
        rfl
      · exact absurd (List.cons.inj hshape).1 hdownload
    · exact absurd (asksArchive_iff.mp hask).2.1 harchive
    · rintro tag ⟨⟩
      exact h.2

end

theorem reads_iff (provider : Provider) (remainder : List Text) (hne : remainder ≠ []) :
    Reads provider remainder ↔ Agrees provider remainder := by
  match remainder with
  | [] => exact absurd rfl hne
  | [part] => exact reads_single provider part
  | first :: second :: rest =>
    by_cases harchive : first = Git.archive
    · rw [harchive]
      exact reads_archive
    · by_cases hdownload : first = download
      · rw [hdownload]
        exact reads_download
      · exact reads_tag harchive hdownload

theorem mirror_iff {e : Engine} {relative owner upstreamRepo action : Text}
    {remainder : List Text}
    (hparts : requestParts relative = owner :: upstreamRepo :: action :: remainder)
    (haction : action.map e.toLower = releases) (hne : remainder ≠ []) :
    Fulfilled e relative owner upstreamRepo remainder ↔ Agrees e.provider remainder :=
  (fulfilled_iff hparts haction hne).trans (reads_iff e.provider remainder hne)

def Engine.sample (provider : Provider) : Engine where
  provider := provider
  mirrors := []
  toLower := Char.toLower
  pathEscape := id
  resourceMutable := fun _ _ => true
  admitted := fun _ _ => true
  concrete := false

theorem mirror_github : Fulfilled (.sample .github) "o/r/releases/v1.0/app.tar".toList ['o'] ['r']
      ["v1.0".toList, "app.tar".toList] ↔ Agrees .github ["v1.0".toList, "app.tar".toList] := by
  have hparts : requestParts "o/r/releases/v1.0/app.tar".toList =
      [['o'], ['r'], releases, "v1.0".toList, "app.tar".toList] := by decide +kernel
  exact mirror_iff hparts (by decide +kernel) (List.cons_ne_nil _ _)

/-- An asset whose name ends in `.zip` is answered with the source archive of its tag. -/
theorem asset_archive_mismatch : requestParts "o/r/releases/v1.0/app.zip".toList =
      [['o'], ['r'], releases, "v1.0".toList, "app.zip".toList] ∧
    ¬Fulfilled (.sample .github) "o/r/releases/v1.0/app.zip".toList ['o'] ['r']
      ["v1.0".toList, "app.zip".toList] := by
  refine ⟨by decide +kernel, fun h => ?_⟩
  have hasset := h.asset "v1.0".toList ["app.zip".toList]
    ⟨List.cons_ne_nil _ _, by decide +kernel, by decide +kernel, Or.inl rfl⟩
  revert hasset
  decide +kernel

end RenoP.Git
