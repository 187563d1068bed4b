import RenoP.Maven.DomainMergeOwners

/-!
# Rules of the merge of Maven domains

Each member of a domain is kept once beside one owner, and each invitation is kept or cancelled.
-/

namespace RenoP.Maven

open RenoP.Database (Text)
open RenoP.Team (permissionRead)
open GoMap (RangeOrder)

def Kept (domains : List DomainMigrationRecord) (domain : Text) : Prop :=
  ∃ d ∈ domains, d.domain = domain

def MemberMigrationRecord.identity (m : MemberMigrationRecord) : Text ⊕ Text :=
  if m.userID = [] then .inr m.username else .inl m.userID

def standing (records : List MemberMigrationRecord) (domain x : Text) :
    Option MemberMigrationRecord :=
  GoMap.gathered keepMember (records.filter fun r => r.domain = domain ∧ r.identityKey = x)

theorem identityKey_congr {m m' : MemberMigrationRecord} (h : m.identity = m'.identity) :
    m.identityKey = m'.identityKey := by
  unfold MemberMigrationRecord.identity at h
  unfold MemberMigrationRecord.identityKey
  split_ifs at h ⊢
  · rw [Sum.inr.inj h]
  · exact Sum.inl.inj h

theorem gathered_member {rows : List MemberMigrationRecord} {m : MemberMigrationRecord}
    (h : GoMap.gathered keepMember rows = some m) :
    (∃ r ∈ rows, r.domain = m.domain ∧ r.username = m.username ∧ r.userID = m.userID ∧
      r.level = m.level) ∧ ∀ r ∈ rows, r.level ≤ m.level := by
  apply GoMap.gathered_induction (P := fun rows m => (∃ r ∈ rows, r.domain = m.domain ∧
    r.username = m.username ∧ r.userID = m.userID ∧ r.level = m.level) ∧
      ∀ r ∈ rows, r.level ≤ m.level) _ _ h
  · intro row
    refine ⟨⟨row, List.mem_singleton.mpr rfl, rfl, rfl, rfl, rfl⟩, ?_⟩
    intro r hr
    rw [List.mem_singleton.mp hr]
    exact le_rfl
  · intro rows row current hcurrent
    obtain ⟨⟨r, hr, hsame⟩, hle⟩ := hcurrent
    have hlast : row ∈ rows ++ [row] := List.mem_append_right _ (List.mem_singleton.mpr rfl)
    have hall : ∀ level, current.level ≤ level → row.level ≤ level →
        ∀ r ∈ rows ++ [row], r.level ≤ level := by
      intro level hcurrent hrow r hr
      rcases List.mem_append.mp hr with hin | hin
      · exact (hle r hin).trans hcurrent
      · rw [List.mem_singleton.mp hin]
        exact hrow
    unfold keepMember
    dsimp only
    split_ifs with hbetter hdate
    · exact ⟨⟨row, hlast, rfl, rfl, rfl, rfl⟩, hall row.level (by omega) le_rfl⟩
    · exact ⟨⟨row, hlast, rfl, rfl, rfl, rfl⟩, hall row.level (by omega) le_rfl⟩
    · exact ⟨⟨r, List.mem_append_left _ hr, hsame⟩, hall current.level le_rfl (by omega)⟩

theorem standing_spec {records : List MemberMigrationRecord} {domain x : Text}
    {m : MemberMigrationRecord} (h : standing records domain x = some m) :
    (∃ r ∈ records, r.domain = domain ∧ r.identityKey = x ∧ r.identity = m.identity ∧
      r.level = m.level) ∧ m.identityKey = x ∧
    ∀ r ∈ records, r.domain = domain → r.identityKey = x → r.level ≤ m.level := by
  obtain ⟨⟨r, hr, -, hname, hid, hlevel⟩, hle⟩ := gathered_member h
  rw [List.mem_filter, decide_eq_true_eq] at hr
  obtain ⟨hmem, hdomain, hkey⟩ := hr
  have hidentity : r.identity = m.identity := by
    unfold MemberMigrationRecord.identity
    rw [hname, hid]
  refine ⟨⟨r, hmem, hdomain, hkey, hidentity, hlevel⟩, ?_, ?_⟩
  · rw [← identityKey_congr hidentity, hkey]
  · intro r' hr' hdomain' hkey'
    exact hle r' (List.mem_filter.mpr ⟨hr', decide_eq_true ⟨hdomain', hkey'⟩⟩)

theorem standing_isSome {records : List MemberMigrationRecord} {r : MemberMigrationRecord}
    (hr : r ∈ records) : ∃ m, standing records r.domain r.identityKey = some m := by
  apply Option.isSome_iff_exists.mp
  unfold standing
  rw [GoMap.gathered_isSome]
  exact List.ne_nil_of_mem (List.mem_filter.mpr ⟨hr, decide_eq_true ⟨rfl, rfl⟩⟩)

theorem gathered_group {rows : List MemberMigrationRecord}
    {members : GoMap Text MemberMigrationRecord}
    (h : GoMap.gathered groupMember rows = some members) :
    members = GoMap.gather MemberMigrationRecord.identityKey keepMember rows := by
  apply GoMap.gathered_induction (P := fun rows members => members =
    GoMap.gather MemberMigrationRecord.identityKey keepMember rows) _ _ h
  · exact fun _ => rfl
  · intro rows row members hmembers
    unfold groupMember
    rw [hmembers, Option.getD_some]
    unfold GoMap.gather
    rw [List.foldl_append]
    rfl

theorem any_domain (domains : List DomainMigrationRecord) (domain : Text) :
    (domains.any fun d => d.domain = domain) = true ↔ Kept domains domain := by
  unfold Kept
  simp only [List.any_eq_true, decide_eq_true_eq]

theorem load_groupMembers {records : List MemberMigrationRecord}
    {domains : List DomainMigrationRecord} {domain : Text}
    {members : GoMap Text MemberMigrationRecord}
    (h : (groupMembers records domains).load domain = some members) :
    Kept domains domain ∧ members.load = standing records domain ∧
      ∃ x m, members.load x = some m := by
  unfold groupMembers at h
  rw [GoMap.load_gather, List.filter_filter] at h
  have hne := GoMap.gathered_isSome.mp (Option.isSome_of_eq_some h)
  obtain ⟨r, hr⟩ := List.exists_mem_of_ne_nil _ hne
  rw [List.mem_filter, Bool.and_eq_true, decide_eq_true_eq, any_domain] at hr
  obtain ⟨hmem, hdomain, hkept⟩ := hr
  have hload : members.load = standing records domain := by
    funext x
    rw [gathered_group h, GoMap.load_gather, List.filter_filter]
    unfold standing
    congr 1
    apply List.filter_congr
    intro r' _
    rw [Bool.eq_iff_iff]
    simp only [Bool.and_eq_true, decide_eq_true_eq, any_domain]
    constructor
    · exact fun hall => ⟨hall.2.1, hall.1⟩
    · rintro ⟨hdomain', hkey⟩
      refine ⟨hkey, hdomain', ?_⟩
      rw [hdomain', ← hdomain]
      exact hkept
  obtain ⟨m, hm⟩ := standing_isSome hmem
  rw [hdomain] at hkept hm
  refine ⟨hkept, hload, r.identityKey, m, ?_⟩
  rw [hload]
  exact hm

theorem groupMembers_isSome {records : List MemberMigrationRecord}
    {domains : List DomainMigrationRecord} {r : MemberMigrationRecord} (hr : r ∈ records)
    (hkept : Kept domains r.domain) :
    ∃ members, (groupMembers records domains).load r.domain = some members := by
  apply Option.isSome_iff_exists.mp
  unfold groupMembers
  rw [GoMap.load_gather, GoMap.gathered_isSome]
  apply List.ne_nil_of_mem (a := r)
  rw [List.mem_filter, List.mem_filter, any_domain, decide_eq_true_eq]
  exact ⟨⟨hr, hkept⟩, rfl⟩

theorem level_demoted (m : MemberMigrationRecord) :
    m.demoted.level ≠ permissionOwner ∧ m.demoted.level ≤ m.level := by
  unfold MemberMigrationRecord.demoted
  have hless : permissionManage < permissionOwner := by decide
  split_ifs with hm
  · rw [hm]
    exact ⟨hless.ne, hless.le⟩
  · exact ⟨hm, le_rfl⟩

theorem placed_same (domain owner : Text) (e : Text × MemberMigrationRecord) :
    (placed domain owner e).domain = domain ∧ (placed domain owner e).username = e.2.username ∧
      (placed domain owner e).userID = e.2.userID := by
  unfold placed MemberMigrationRecord.demoted
  split_ifs <;> exact ⟨rfl, rfl, rfl⟩

theorem identity_placed (domain owner : Text) (e : Text × MemberMigrationRecord) :
    (placed domain owner e).identity = e.2.identity := by
  obtain ⟨-, hname, hid⟩ := placed_same domain owner e
  unfold MemberMigrationRecord.identity
  rw [hname, hid]

theorem level_placed (domain owner : Text) (e : Text × MemberMigrationRecord) :
    ((placed domain owner e).level = permissionOwner ↔ e.1 = owner) ∧
      (e.1 ≠ owner → (placed domain owner e).level ≤ clampLevel e.2.level) := by
  unfold placed
  split_ifs with howner
  · exact ⟨⟨fun _ => howner, fun _ => rfl⟩, fun hne => absurd howner hne⟩
  · obtain ⟨hne, hle⟩ := level_demoted (memberOf domain e.2)
    exact ⟨⟨fun hlevel => absurd hlevel hne, fun h => absurd h howner⟩, fun _ => hle⟩

section

variable {o : RangeOrder Text (GoMap Text MemberMigrationRecord)}
  {ids : RangeOrder Text MemberMigrationRecord} {records : List MemberMigrationRecord}
  {domains : List DomainMigrationRecord} {m : MemberMigrationRecord}

theorem domain_settled {domain : Text} {members : GoMap Text MemberMigrationRecord}
    (h : (groupMembers records domains).load domain = some members)
    (ids : RangeOrder Text MemberMigrationRecord) :
    ∃ owner m, standing records domain owner = some m ∧ Leads (standing records domain) m ∧
      (domainMembers ids domain members).Perm ((ids.pairs members).map (placed domain owner)) ∧
      ∀ x m' rest, ids.pairs members = (x, m') :: rest → Leads (standing records domain) m' →
        x = owner := by
  obtain ⟨-, hload, hne⟩ := load_groupMembers h
  have hkeys : ∀ x m, members.load x = some m → m.identityKey = x := by
    intro x m hm
    rw [hload] at hm
    exact (standing_spec hm).2.1
  have hspec := domainMembers_spec hkeys hne ids domain
  rw [hload] at hspec
  exact hspec

theorem mem_domainMembers {domain : Text} {members : GoMap Text MemberMigrationRecord}
    (h : (groupMembers records domains).load domain = some members)
    (hm : m ∈ domainMembers ids domain members) : m.domain = domain := by
  obtain ⟨owner, -, -, -, hperm, -⟩ := domain_settled h ids
  obtain ⟨e, -, rfl⟩ := List.mem_map.mp (hperm.mem_iff.mp hm)
  exact (placed_same domain owner e).1

theorem mem_merged (o : RangeOrder Text (GoMap Text MemberMigrationRecord))
    (ids : RangeOrder Text MemberMigrationRecord) (m : MemberMigrationRecord) :
    m ∈ mergeMavenMemberRecords o ids records domains ↔
      ∃ members, (groupMembers records domains).load m.domain = some members ∧
        m ∈ domainMembers ids m.domain members := by
  rw [mergeMavenMemberRecords, (StableSort.sort_perm _ _).mem_iff, List.mem_flatMap, Prod.exists]
  simp only [o.mem_pairs]
  constructor
  · rintro ⟨domain, members, hload, hm⟩
    rw [mem_domainMembers hload hm]
    exact ⟨members, hload, hm⟩
  · rintro ⟨members, hload, hm⟩
    exact ⟨m.domain, members, hload, hm⟩

theorem domain_owner {domain : Text} {members : GoMap Text MemberMigrationRecord}
    (h : (groupMembers records domains).load domain = some members)
    (o : RangeOrder Text (GoMap Text MemberMigrationRecord))
    (ids : RangeOrder Text MemberMigrationRecord) :
    ∃ owner w, standing records domain owner = some w ∧ Leads (standing records domain) w ∧
      (∀ m, m ∈ mergeMavenMemberRecords o ids records domains ∧ m.domain = domain ↔
        ∃ x e, standing records domain x = some e ∧ m = placed domain owner (x, e)) ∧
      ∀ x e, ids = .leading x → standing records domain x = some e →
        Leads (standing records domain) e → x = owner := by
  obtain ⟨owner, w, hw, hleads, hperm, hfirst⟩ := domain_settled h ids
  have hload := (load_groupMembers h).2.1
  refine ⟨owner, w, hw, hleads, ?_, ?_⟩
  · have hplaced : ∀ m, m ∈ domainMembers ids domain members ↔
        ∃ x e, standing records domain x = some e ∧ m = placed domain owner (x, e) := by
      intro m
      rw [hperm.mem_iff, List.mem_map, Prod.exists]
      simp only [ids.mem_pairs, hload, eq_comm]
    intro m
    rw [mem_merged, ← hplaced]
    constructor
    · rintro ⟨⟨members', hmembers, hm⟩, rfl⟩
      rw [h] at hmembers
      cases hmembers
      exact hm
    · intro hm
      have hdomain := mem_domainMembers h hm
      rw [hdomain]
      exact ⟨⟨members, h, hm⟩, rfl⟩
  · intro x e hids he hleads'
    rw [← hload] at he
    obtain ⟨rest, hpairs⟩ := RangeOrder.leading_pairs he
    exact hfirst x e rest (hids ▸ hpairs) hleads'

def MemberMigrationRecord.place (m : MemberMigrationRecord) : Text × Text :=
  (m.domain, m.identityKey)

theorem place_placed {domain owner x : Text} {e : MemberMigrationRecord}
    (hx : standing records domain x = some e) :
    (placed domain owner (x, e)).place = (domain, x) := by
  have hkey := identityKey_congr (identity_placed domain owner (x, e))
  unfold MemberMigrationRecord.place
  rw [(placed_same domain owner (x, e)).1, hkey, (standing_spec hx).2.1]

theorem places_nodup (o : RangeOrder Text (GoMap Text MemberMigrationRecord))
    (ids : RangeOrder Text MemberMigrationRecord) (records : List MemberMigrationRecord)
    (domains : List DomainMigrationRecord) :
    ((mergeMavenMemberRecords o ids records domains).map MemberMigrationRecord.place).Nodup := by
  rw [mergeMavenMemberRecords, ((StableSort.sort_perm _ _).map _).nodup_iff, List.map_flatMap]
  have hplaces : ∀ e ∈ o.pairs (groupMembers records domains),
      ((domainMembers ids e.1 e.2).map MemberMigrationRecord.place).Perm
        ((ids.keys e.2).map fun x => (e.1, x)) := by
    rintro ⟨domain, members⟩ he
    have hload := (o.mem_pairs _ _ _).mp he
    obtain ⟨owner, -, -, -, hperm, -⟩ := domain_settled hload ids
    apply (hperm.map _).trans
    rw [← ids.pairs_keys, List.map_map, List.map_map]
    apply List.Perm.of_eq
    apply List.map_congr_left
    rintro ⟨x, e⟩ hx
    rw [ids.mem_pairs, (load_groupMembers hload).2.1] at hx
    exact place_placed hx
  rw [List.nodup_flatMap]
  constructor
  · intro e he
    rw [(hplaces e he).nodup_iff]
    exact (ids.nodup e.2).map fun x y h => (Prod.mk.inj h).2
  · have hkeys := o.pairs_nodup (groupMembers records domains)
    rw [List.Nodup, List.pairwise_map] at hkeys
    apply hkeys.imp_of_mem
    intro e e' he he' hne place hplace hplace'
    obtain ⟨x, -, rfl⟩ := List.mem_map.mp ((hplaces e he).mem_iff.mp hplace)
    obtain ⟨x', -, heq⟩ := List.mem_map.mp ((hplaces e' he').mem_iff.mp hplace')
    exact hne (Prod.mk.inj heq).1.symm

/-- Each identity of a kept domain is a member once and at its own level, and one of the members
owns the domain. Where nobody had the level of an owner, one member is promoted. -/
structure MembersMerged (domains : List DomainMigrationRecord)
    (records merged : List MemberMigrationRecord) : Prop where
  known : ∀ m ∈ merged, Kept domains m.domain ∧
    ∃ r ∈ records, r.domain = m.domain ∧ r.identity = m.identity
  once : ∀ r ∈ records, Kept domains r.domain →
    merged.countP (fun m => m.domain = r.domain ∧ m.identity = r.identity) = 1
  level : ∀ m ∈ merged,
    (∃ r ∈ records, r.domain = m.domain ∧ r.identity = m.identity ∧
      m.level ≤ clampLevel r.level) ∨
    (m.level = permissionOwner ∧ ∀ r ∈ records, r.domain = m.domain → r.level < permissionOwner)
  owner : ∀ domain, (∃ m ∈ merged, m.domain = domain) →
    merged.countP (fun m => m.domain = domain ∧ m.level = permissionOwner) = 1

def IdentitiesTold (domains : List DomainMigrationRecord) (records : List MemberMigrationRecord) :
    Prop :=
  ∀ r ∈ records, ∀ r' ∈ records, Kept domains r.domain → r'.domain = r.domain →
    r'.identityKey = r.identityKey → r'.identity = r.identity

def OwnersTold (domains : List DomainMigrationRecord) (records : List MemberMigrationRecord) :
    Prop :=
  ∀ domain, Kept domains domain → ∀ x y m m', standing records domain x = some m →
    standing records domain y = some m' → Leads (standing records domain) m →
      Leads (standing records domain) m' → x = y

theorem clampLevel_mono {a b : ℤ} (h : a ≤ b) : clampLevel a ≤ clampLevel b :=
  min_le_min_right _ (max_le_max_right _ h)

theorem clampLevel_eq_owner {level : ℤ} : clampLevel level = permissionOwner ↔
    permissionOwner ≤ level := by
  unfold clampLevel permissionRead permissionOwner
  omega

theorem load_of_merged (h : m ∈ mergeMavenMemberRecords o ids records domains) :
    ∃ members, (groupMembers records domains).load m.domain = some members := by
  obtain ⟨members, hload, -⟩ := (mem_merged o ids m).mp h
  exact ⟨members, hload⟩

theorem members_level (h : m ∈ mergeMavenMemberRecords o ids records domains) :
    (∃ r ∈ records, r.domain = m.domain ∧ r.identity = m.identity ∧
      m.level ≤ clampLevel r.level) ∨
    (m.level = permissionOwner ∧
      ∀ r ∈ records, r.domain = m.domain → r.level < permissionOwner) := by
  obtain ⟨members, hload⟩ := load_of_merged h
  obtain ⟨owner, w, hw, hleads, hmembers, -⟩ := domain_owner hload o ids
  obtain ⟨x, e, hx, hm⟩ := (hmembers m).mp ⟨h, rfl⟩
  obtain ⟨⟨r, hr, hdomain, -, hidentity, hlevel⟩, -, -⟩ := standing_spec hx
  have hsame : r.identity = m.identity := by
    rw [hidentity, hm, identity_placed]
  have hplaced := level_placed m.domain owner (x, e)
  rw [← hm] at hplaced
  by_cases howner : x = owner
  · have htop : m.level = permissionOwner := hplaced.1.mpr howner
    rw [howner, hw] at hx
    cases hx
    by_cases hhigh : clampLevel w.level = permissionOwner
    · left
      refine ⟨r, hr, hdomain, hsame, ?_⟩
      rw [hlevel, hhigh, htop]
    · right
      refine ⟨htop, ?_⟩
      intro r' hr' hdomain'
      obtain ⟨e', he'⟩ := standing_isSome hr'
      have hle := (standing_spec he').2.2 r' hr' rfl rfl
      rw [hdomain'] at he'
      have hnot := hleads _ e' he'
      rw [precedes_iff, not_or, not_lt] at hnot
      by_contra hgreat
      have hmono := clampLevel_mono ((not_lt.mp hgreat).trans hle)
      have hw' : clampLevel w.level ≤ permissionOwner := min_le_right _ _
      rw [clampLevel_eq_owner.mpr le_rfl] at hmono
      exact hhigh (le_antisymm hw' (hmono.trans hnot.1))
  · left
    refine ⟨r, hr, hdomain, hsame, ?_⟩
    rw [hlevel]
    exact hplaced.2 howner

theorem owner_once (h : m ∈ mergeMavenMemberRecords o ids records domains) :
    (mergeMavenMemberRecords o ids records domains).countP
      (fun m' => m'.domain = m.domain ∧ m'.level = permissionOwner) = 1 := by
  obtain ⟨members, hload⟩ := load_of_merged h
  obtain ⟨owner, w, hw, -, hmembers, -⟩ := domain_owner hload o ids
  apply GoMap.countP_eq_one (places_nodup o ids records domains)
    ((hmembers _).mpr ⟨owner, w, hw, rfl⟩).1
  intro q hq
  rw [decide_eq_true_iff, place_placed hw]
  constructor
  · rintro ⟨hdomain, hlevel⟩
    obtain ⟨x, e, hx, rfl⟩ := (hmembers q).mp ⟨hq, hdomain⟩
    have howner : x = owner := (level_placed m.domain owner (x, e)).1.mp hlevel
    rw [place_placed hx, howner]
  · intro hplace
    have hdomain : q.domain = m.domain := (Prod.mk.inj hplace).1
    obtain ⟨x, e, hx, rfl⟩ := (hmembers q).mp ⟨hq, hdomain⟩
    rw [place_placed hx] at hplace
    exact ⟨hdomain, (level_placed m.domain owner (x, e)).1.mpr (Prod.mk.inj hplace).2⟩

theorem identity_once (htold : IdentitiesTold domains records)
    (o : RangeOrder Text (GoMap Text MemberMigrationRecord))
    (ids : RangeOrder Text MemberMigrationRecord) {r : MemberMigrationRecord} (hr : r ∈ records)
    (hkept : Kept domains r.domain) :
    (mergeMavenMemberRecords o ids records domains).countP
      (fun m => m.domain = r.domain ∧ m.identity = r.identity) = 1 := by
  obtain ⟨members, hload⟩ := groupMembers_isSome hr hkept
  obtain ⟨owner, w, hw, -, hmembers, -⟩ := domain_owner hload o ids
  obtain ⟨e, he⟩ := standing_isSome hr
  apply GoMap.countP_eq_one (places_nodup o ids records domains)
    ((hmembers _).mpr ⟨r.identityKey, e, he, rfl⟩).1
  intro q hq
  rw [decide_eq_true_iff, place_placed he]
  constructor
  · rintro ⟨hdomain, hidentity⟩
    unfold MemberMigrationRecord.place
    rw [hdomain, identityKey_congr hidentity]
  · intro hplace
    obtain ⟨hdomain, hkey⟩ := Prod.mk.inj hplace
    obtain ⟨x, e', hx, rfl⟩ := (hmembers q).mp ⟨hq, hdomain⟩
    obtain ⟨⟨r', hr', hdomain', hkey', hidentity', -⟩, -, -⟩ := standing_spec hx
    rw [place_placed hx] at hplace
    refine ⟨hdomain, ?_⟩
    rw [identity_placed, ← hidentity']
    exact htold r hr r' hr' hkept hdomain' (hkey'.trans (Prod.mk.inj hplace).2)

theorem members_merged (htold : IdentitiesTold domains records)
    (o : RangeOrder Text (GoMap Text MemberMigrationRecord))
    (ids : RangeOrder Text MemberMigrationRecord) :
    MembersMerged domains records (mergeMavenMemberRecords o ids records domains) := by
  constructor
  · intro m hm
    obtain ⟨members, hload⟩ := load_of_merged hm
    obtain ⟨owner, w, hw, -, hmembers, -⟩ := domain_owner hload o ids
    obtain ⟨x, e, hx, heq⟩ := (hmembers m).mp ⟨hm, rfl⟩
    obtain ⟨⟨r, hr, hdomain, -, hidentity, -⟩, -, -⟩ := standing_spec hx
    refine ⟨(load_groupMembers hload).1, r, hr, hdomain, ?_⟩
    rw [hidentity, heq, identity_placed]
  · exact fun r hr hkept => identity_once htold o ids hr hkept
  · exact fun m hm => members_level hm
  · rintro _ ⟨m, hm, rfl⟩
    exact owner_once hm

theorem identities_told
    (h : MembersMerged domains records (mergeMavenMemberRecords o ids records domains)) :
    IdentitiesTold domains records := by
  intro r hr r' hr' hkept hdomain hkey
  have hone := h.once r hr hkept
  have hone' := h.once r' hr' (hdomain ▸ hkept)
  obtain ⟨q, hq, htest⟩ := List.countP_pos_iff.mp (hone.symm ▸ Nat.one_pos)
  obtain ⟨q', hq', htest'⟩ := List.countP_pos_iff.mp (hone'.symm ▸ Nat.one_pos)
  obtain ⟨hqdomain, hqidentity⟩ := of_decide_eq_true htest
  obtain ⟨hqdomain', hqidentity'⟩ := of_decide_eq_true htest'
  have hplace : q.place = q'.place := by
    unfold MemberMigrationRecord.place
    rw [hqdomain, hqdomain', hdomain, identityKey_congr hqidentity, identityKey_congr hqidentity',
      hkey]
  have hsame : q = q' :=
    List.inj_on_of_nodup_map (places_nodup o ids records domains) hq hq' hplace
  rw [← hqidentity', ← hqidentity, hsame]

theorem owners_agree (htold : OwnersTold domains records)
    {domains' : List DomainMigrationRecord}
    {o' : RangeOrder Text (GoMap Text MemberMigrationRecord)}
    {ids' : RangeOrder Text MemberMigrationRecord} {m' : MemberMigrationRecord}
    (hm : m ∈ mergeMavenMemberRecords o ids records domains)
    (hm' : m' ∈ mergeMavenMemberRecords o' ids' records domains') (hdomain : m.domain = m'.domain)
    (howner : m.level = permissionOwner) (howner' : m'.level = permissionOwner) :
    m.identity = m'.identity := by
  obtain ⟨members, hload⟩ := load_of_merged hm
  obtain ⟨members', hload'⟩ := load_of_merged hm'
  obtain ⟨owner, w, hw, hleads, hmembers, -⟩ := domain_owner hload o ids
  obtain ⟨owner', w', hw', hleads', hmembers', -⟩ := domain_owner hload' o' ids'
  obtain ⟨x, e, hx, heq⟩ := (hmembers m).mp ⟨hm, rfl⟩
  obtain ⟨x', e', hx', heq'⟩ := (hmembers' m').mp ⟨hm', rfl⟩
  have hxowner : x = owner := (level_placed m.domain owner (x, e)).1.mp (heq ▸ howner)
  have hxowner' : x' = owner' := (level_placed m'.domain owner' (x', e')).1.mp (heq' ▸ howner')
  rw [← hdomain] at hw' hleads' hx'
  have hsame := htold m.domain (load_groupMembers hload).1 owner owner' w w' hw hw' hleads hleads'
  rw [hxowner', ← hsame, ← hxowner, hx] at hx'
  cases hx'
  rw [heq, heq', identity_placed, identity_placed]

theorem owners_told
    (h : ∀ ids ids', ∀ m ∈ mergeMavenMemberRecords o ids records domains,
      ∀ m' ∈ mergeMavenMemberRecords o ids' records domains, m.domain = m'.domain →
        m.level = permissionOwner → m'.level = permissionOwner → m.identity = m'.identity) :
    OwnersTold domains records := by
  intro domain hkept x y e e' he he' hleads hleads'
  have hrow : ∃ r ∈ records, r.domain = domain := by
    obtain ⟨⟨r, hr, hdomain, -⟩, -, -⟩ := standing_spec he
    exact ⟨r, hr, hdomain⟩
  obtain ⟨r, hr, rfl⟩ := hrow
  obtain ⟨members, hload⟩ := groupMembers_isSome hr hkept
  have hplaced : ∀ x e, standing records r.domain x = some e →
      Leads (standing records r.domain) e →
      placed r.domain x (x, e) ∈ mergeMavenMemberRecords o (.leading x) records domains := by
    intro x e he hleads
    obtain ⟨owner, w, -, -, hmembers, hfirst⟩ := domain_owner hload o (.leading x)
    have hx := hfirst x e rfl he hleads
    rw [← hx] at hmembers
    exact ((hmembers _).mpr ⟨x, e, he, rfl⟩).1
  have hidentity := h (.leading x) (.leading y) _ (hplaced x e he hleads) _
    (hplaced y e' he' hleads')
    ((placed_same ..).1.trans (placed_same ..).1.symm) ((level_placed ..).1.mpr rfl)
    ((level_placed ..).1.mpr rfl)
  have hplace : (placed r.domain x (x, e)).place = (r.domain, x) := place_placed he
  have hplace' : (placed r.domain y (y, e')).place = (r.domain, y) := place_placed he'
  unfold MemberMigrationRecord.place at hplace hplace'
  rw [← (Prod.mk.inj hplace).2, ← (Prod.mk.inj hplace').2, identityKey_congr hidentity]

theorem names_agree {domains' : List DomainMigrationRecord}
    (hkept : ∀ domain, Kept domains domain ↔ Kept domains' domain)
    (o' : RangeOrder Text (GoMap Text MemberMigrationRecord))
    (ids' : RangeOrder Text MemberMigrationRecord)
    (hm : m ∈ mergeMavenMemberRecords o ids records domains) :
    ∃ m' ∈ mergeMavenMemberRecords o' ids' records domains',
      m'.domain = m.domain ∧ m'.username = m.username := by
  obtain ⟨members, hload⟩ := load_of_merged hm
  obtain ⟨owner, w, hw, -, hmembers, -⟩ := domain_owner hload o ids
  obtain ⟨x, e, hx, heq⟩ := (hmembers m).mp ⟨hm, rfl⟩
  have hrow : ∃ r ∈ records, r.domain = m.domain := by
    obtain ⟨⟨r, hr, hdomain, -⟩, -, -⟩ := standing_spec hx
    exact ⟨r, hr, hdomain⟩
  obtain ⟨r, hr, hdomain⟩ := hrow
  have hkept' := (hkept m.domain).mp (load_groupMembers hload).1
  rw [← hdomain] at hkept'
  obtain ⟨members', hload'⟩ := groupMembers_isSome hr hkept'
  rw [hdomain] at hload'
  obtain ⟨owner', -, -, -, hmembers', -⟩ := domain_owner hload' o' ids'
  refine ⟨placed m.domain owner' (x, e), ((hmembers' _).mpr ⟨x, e, hx, rfl⟩).1,
    (placed_same ..).1, ?_⟩
  rw [(placed_same m.domain owner' (x, e)).2.1, heq]
  exact (placed_same m.domain owner (x, e)).2.1.symm

end

/-- Each invitation is kept or cancelled, the kept ones at most once for a recipient who is not a
member. -/
structure InvitationsMerged (members : List MemberMigrationRecord)
    (records kept cancelled : List InvitationMigrationRecord) : Prop where
  partition : ((kept ++ cancelled).map InvitationMigrationRecord.clamped).Perm
    (records.map InvitationMigrationRecord.clamped)
  once : (kept.map fun r => (r.domain, r.recipient)).Nodup
  outside : ∀ r ∈ kept, ∀ m ∈ members, ¬(m.domain = r.domain ∧ m.username = r.recipient)

theorem clampLevel_idem (level : ℤ) : clampLevel (clampLevel level) = clampLevel level := by
  unfold clampLevel permissionRead permissionOwner
  omega

theorem clamped_idem (r : InvitationMigrationRecord) : r.clamped.clamped = r.clamped := by
  unfold InvitationMigrationRecord.clamped
  rw [clampLevel_idem]

structure Selected (member : Text → Bool) (records : List InvitationMigrationRecord)
    (state : GoMap Text InvitationMigrationRecord × List InvitationMigrationRecord) : Prop where
  partition : ((GoMap.values state.1 ++ state.2).map InvitationMigrationRecord.clamped).Perm
    (records.map InvitationMigrationRecord.clamped)
  keyed : ∀ key r, state.1.load key = some r → inviteKey r.domain r.recipient = key ∧
    member key = false

theorem Selected.next {valid member : Text → Bool} {records : List InvitationMigrationRecord}
    {state : GoMap Text InvitationMigrationRecord × List InvitationMigrationRecord}
    (h : Selected member records state) (record : InvitationMigrationRecord) :
    Selected member (records ++ [record]) (selectInvitation valid member state record) := by
  obtain ⟨selected, cancelled⟩ := state
  have hpartition := h.partition
  have hrecords : (records ++ [record]).map InvitationMigrationRecord.clamped =
      records.map InvitationMigrationRecord.clamped ++ [record.clamped] := List.map_append
  have hcancel : Selected member (records ++ [record]) (selected, cancelled ++ [record]) := by
    refine ⟨?_, h.keyed⟩
    rw [hrecords, ← List.append_assoc, List.map_append]
    exact hpartition.append_right _
  unfold selectInvitation
  dsimp only
  split_ifs with hvalid hmember
  · exact hcancel
  · exact hcancel
  · rw [Bool.not_eq_true] at hmember
    have hkeyed : ∀ key r, (selected.store (inviteKey record.domain record.recipient)
        record.clamped).load key = some r → inviteKey r.domain r.recipient = key ∧
          member key = false := by
      intro key r hload
      rw [GoMap.load_store] at hload
      split_ifs at hload with hkey
      · cases hload
        rw [hkey]
        exact ⟨rfl, hmember⟩
      · exact h.keyed key r hload
    cases hload : selected.load (inviteKey record.domain record.recipient) with
    | none =>
      refine ⟨?_, hkeyed⟩
      dsimp only
      rw [GoMap.values_store, GoMap.values_absent hload, List.cons_append, List.map_cons,
        clamped_idem, hrecords]
      exact (hpartition.cons _).trans (List.perm_append_singleton _ _).symm
    | some current =>
      dsimp only
      split_ifs with hlater
      · refine ⟨?_, hkeyed⟩
        have hvalues := (GoMap.values_delete hload).append_right cancelled
        have hall := ((hvalues.map InvitationMigrationRecord.clamped).symm.trans hpartition)
        dsimp only
        rw [GoMap.values_store, List.cons_append, List.map_cons, clamped_idem, hrecords,
          ← List.append_assoc]
        refine ((List.perm_append_singleton current _).map _).cons _ |>.trans ?_
        exact (hall.cons _).trans (List.perm_append_singleton _ _).symm
      · refine ⟨?_, h.keyed⟩
        rw [hrecords, ← List.append_assoc, List.map_append, List.map_singleton, clamped_idem]
        exact hpartition.append_right _

theorem selected_fold (valid member : Text → Bool) (records : List InvitationMigrationRecord) :
    Selected member records (records.foldl (selectInvitation valid member) (∅, [])) := by
  induction records using List.reverseRecOn with
  | nil => exact ⟨List.Perm.refl _, nofun⟩
  | append_singleton records record ih =>
    rw [List.foldl_append]
    exact ih.next record

theorem invitations_merged (o : RangeOrder Text InvitationMigrationRecord)
    (records : List InvitationMigrationRecord) (domains : List DomainMigrationRecord)
    (members : List MemberMigrationRecord) :
    InvitationsMerged members records
      (mergeMavenInvitationRecords o records domains members).1
      (mergeMavenInvitationRecords o records domains members).2 := by
  have hselected := selected_fold (fun domain => domains.any fun d => d.domain = domain)
    (fun key => members.any fun m => inviteKey m.domain m.username = key) records
  unfold mergeMavenInvitationRecords
  generalize records.foldl _ _ = state at hselected
  obtain ⟨selected, cancelled⟩ := state
  have hperm := StableSort.sort_perm InvitationMigrationRecord.listedBefore
    ((o.pairs selected).map Prod.snd)
  constructor
  · have hkept := (hperm.trans (o.pairs_values selected)).append_right cancelled
    exact (hkept.map _).trans hselected.partition
  · apply List.Nodup.of_map fun name : Text × Text => inviteKey name.1 name.2
    rw [((hperm.map _).map _).nodup_iff, List.map_map, List.map_map]
    have hkeys : (o.pairs selected).map
        (((fun name : Text × Text => inviteKey name.1 name.2) ∘
          fun r : InvitationMigrationRecord => (r.domain, r.recipient)) ∘ Prod.snd) =
            o.keys selected := by
      rw [← o.pairs_keys]
      apply List.map_congr_left
      rintro ⟨key, r⟩ he
      exact (hselected.keyed key r ((o.mem_pairs _ _ _).mp he)).1
    rw [hkeys]
    exact o.nodup selected
  · intro r hr m hm hsame
    obtain ⟨⟨key, r'⟩, he, rfl⟩ := List.mem_map.mp (hperm.mem_iff.mp hr)
    obtain ⟨hkey, hmember⟩ := hselected.keyed key r' ((o.mem_pairs _ _ _).mp he)
    rw [List.any_eq_false] at hmember
    apply hmember m hm
    rw [decide_eq_true_iff, hsame.1, hsame.2]
    exact hkey

theorem kept_agree {o o' : RangeOrder Text InvitationMigrationRecord}
    {records : List InvitationMigrationRecord} {domains domains' : List DomainMigrationRecord}
    {members members' : List MemberMigrationRecord}
    (hdomains : ∀ domain, Kept domains domain ↔ Kept domains' domain)
    (hmembers : ∀ key, (∃ m ∈ members, inviteKey m.domain m.username = key) ↔
      ∃ m ∈ members', inviteKey m.domain m.username = key) :
    (mergeMavenInvitationRecords o records domains members).1.Perm
      (mergeMavenInvitationRecords o' records domains' members').1 := by
  have hvalid : (fun domain => domains.any fun d => decide (d.domain = domain)) =
      fun domain => domains'.any fun d => decide (d.domain = domain) := by
    funext domain
    rw [Bool.eq_iff_iff, any_domain, any_domain]
    exact hdomains domain
  have hmember : (fun key => members.any fun m => decide (inviteKey m.domain m.username = key)) =
      fun key => members'.any fun m => decide (inviteKey m.domain m.username = key) := by
    funext key
    rw [Bool.eq_iff_iff, List.any_eq_true, List.any_eq_true]
    simp only [decide_eq_true_iff]
    exact hmembers key
  unfold mergeMavenInvitationRecords
  rw [hvalid, hmember]
  dsimp only
  apply (StableSort.sort_perm _ _).trans
  apply ((o.pairs_values _).trans (o'.pairs_values _).symm).trans
  exact (StableSort.sort_perm _ _).symm

theorem kept_merged (o : RangeOrder Text (List DomainMigrationRecord))
    (records : List DomainMigrationRecord) (domain : Text) :
    Kept (mergeMavenDomainRecords o records) domain ↔ Kept records domain :=
  (domains_merged o records).kept domain

theorem told_merged (o : RangeOrder Text (List DomainMigrationRecord))
    (domains : List DomainMigrationRecord) (records : List MemberMigrationRecord) :
    (IdentitiesTold (mergeMavenDomainRecords o domains) records ↔ IdentitiesTold domains records) ∧
      (OwnersTold (mergeMavenDomainRecords o domains) records ↔ OwnersTold domains records) := by
  unfold IdentitiesTold OwnersTold
  simp only [kept_merged, and_self]

theorem membersMerged_merged (o : RangeOrder Text (List DomainMigrationRecord))
    (domains : List DomainMigrationRecord) (records merged : List MemberMigrationRecord) :
    MembersMerged (mergeMavenDomainRecords o domains) records merged ↔
      MembersMerged domains records merged := by
  constructor
  · rintro ⟨hknown, honce, hlevel, howner⟩
    simp only [kept_merged] at hknown honce
    exact ⟨hknown, honce, hlevel, howner⟩
  · rintro ⟨hknown, honce, hlevel, howner⟩
    refine ⟨?_, ?_, hlevel, howner⟩
    · simp only [kept_merged]
      exact hknown
    · simp only [kept_merged]
      exact honce

/-- The merge keeps each domain name once and splits the invitations, the same for any order of the
ranges. Each identity is a member once and one owner is the same for any order where the keys tell
the identities of a domain apart and no two of them stand first. -/
theorem merge_records (domains : List DomainMigrationRecord) (members : List MemberMigrationRecord)
    (invitations : List InvitationMigrationRecord) :
    (∀ o, DomainsMerged domains (migrateGlobalMavenDomains o domains members invitations).domains ∧
      InvitationsMerged (migrateGlobalMavenDomains o domains members invitations).members
        invitations (migrateGlobalMavenDomains o domains members invitations).invitations
        (migrateGlobalMavenDomains o domains members invitations).cancelled) ∧
    (∀ o o' id, (∃ r ∈ (migrateGlobalMavenDomains o domains members invitations).invitations,
        r.id = id) ↔
      ∃ r ∈ (migrateGlobalMavenDomains o' domains members invitations).invitations, r.id = id) ∧
    (((∀ o, MembersMerged domains members
        (migrateGlobalMavenDomains o domains members invitations).members) ∧
      ∀ o o', ∀ m ∈ (migrateGlobalMavenDomains o domains members invitations).members,
        ∀ m' ∈ (migrateGlobalMavenDomains o' domains members invitations).members,
          m.domain = m'.domain → m.level = permissionOwner → m'.level = permissionOwner →
            m.identity = m'.identity) ↔
      IdentitiesTold domains members ∧ OwnersTold domains members) := by
  refine ⟨fun o => ⟨domains_merged o.domains domains, invitations_merged ..⟩, ?_, ?_, ?_⟩
  · intro o o' id
    have hkept : ∀ domain, Kept (mergeMavenDomainRecords o.domains domains) domain ↔
        Kept (mergeMavenDomainRecords o'.domains domains) domain := by
      intro domain
      rw [kept_merged, kept_merged]
    have hperm := @kept_agree o.invitations o'.invitations invitations _ _
      (mergeMavenMemberRecords o.members o.identities members
        (mergeMavenDomainRecords o.domains domains))
      (mergeMavenMemberRecords o'.members o'.identities members
        (mergeMavenDomainRecords o'.domains domains)) hkept (by
        intro key
        constructor
        · rintro ⟨m, hm, rfl⟩
          obtain ⟨m', hm', hdomain, hname⟩ := names_agree hkept o'.members o'.identities hm
          exact ⟨m', hm', by rw [hdomain, hname]⟩
        · rintro ⟨m, hm, rfl⟩
          obtain ⟨m', hm', hdomain, hname⟩ :=
            names_agree (fun domain => (hkept domain).symm) o.members o.identities hm
          exact ⟨m', hm', by rw [hdomain, hname]⟩)
    constructor
    · rintro ⟨r, hr, hid⟩
      exact ⟨r, hperm.mem_iff.mp hr, hid⟩
    · rintro ⟨r, hr, hid⟩
      exact ⟨r, hperm.mem_iff.mpr hr, hid⟩
  · rintro ⟨hmerged, hagree⟩
    let o : RangeOrder Text (List DomainMigrationRecord) := .leading []
    have htold := told_merged o domains members
    rw [← htold.1, ← htold.2]
    constructor
    · exact identities_told ((membersMerged_merged ..).mpr
        (hmerged ⟨o, .leading [], .leading [], .leading []⟩))
    · apply owners_told (o := .leading [])
      intro ids ids'
      exact hagree ⟨o, .leading [], ids, .leading []⟩ ⟨o, .leading [], ids', .leading []⟩
  · rintro ⟨hidentities, howners⟩
    constructor
    · intro o
      rw [← (told_merged o.domains domains members).1] at hidentities
      exact (membersMerged_merged ..).mp (members_merged hidentities o.members o.identities)
    · intro o o' m hm m' hm' hdomain howner howner'
      rw [← (told_merged o.domains domains members).2] at howners
      exact owners_agree howners hm hm' hdomain howner howner'

def exampleDomain : DomainMigrationRecord where
  repository := "releases".toList
  domain := "com.example".toList
  verificationType := "dns".toList
  verificationHost := "example.com".toList
  verificationCode := []
  verified := true
  createdAt := 100
  verifiedAt := 100
  lastCheckAt := 100

def exampleOwner (userID : Text) : MemberMigrationRecord :=
  ⟨"com.example".toList, "alice".toList, userID, 4, 100⟩

def exampleOwners : List MemberMigrationRecord :=
  [exampleOwner "u1".toList, exampleOwner "u2".toList]

theorem example_leads {m : MemberMigrationRecord} (hm : m ∈ exampleOwners) :
    Leads (standing exampleOwners "com.example".toList) m := by
  intro x m' hx
  have hmember : m' ∈ exampleOwners := by
    obtain ⟨⟨r, hr, -, hkey, -⟩, -, -⟩ := standing_spec hx
    rcases List.mem_cons.mp hr with rfl | hr
    · rw [← hkey] at hx
      have heq : m' = exampleOwner "u1".toList := Option.some.inj (hx.symm.trans rfl)
      rw [heq]
      exact List.mem_cons_self ..
    · rw [List.mem_singleton.mp hr] at hkey
      rw [← hkey] at hx
      have heq : m' = exampleOwner "u2".toList := Option.some.inj (hx.symm.trans rfl)
      rw [heq]
      exact List.mem_cons_of_mem _ (List.mem_singleton.mpr rfl)
  have hsame : ∀ r ∈ exampleOwners, r.level = 4 ∧ r.addedAt = 100 ∧
      r.username = "alice".toList := by decide
  obtain ⟨hlevel, hdate, hname⟩ := hsame m hm
  obtain ⟨hlevel', hdate', hname'⟩ := hsame m' hmember
  rw [precedes_iff, hlevel, hlevel', hdate, hdate', hname, hname']
  rintro (hless | ⟨-, hless⟩)
  · exact lt_irrefl _ hless
  · exact lt_irrefl _ hless

/-- The range over the members decides who owns the domain. -/
theorem owner_of_range :
    ¬∀ o o', ∀ m ∈ (migrateGlobalMavenDomains o [exampleDomain] exampleOwners []).members,
      ∀ m' ∈ (migrateGlobalMavenDomains o' [exampleDomain] exampleOwners []).members,
        m.domain = m'.domain → m.level = permissionOwner → m'.level = permissionOwner →
          m.identity = m'.identity := by
  intro hall
  have htold : OwnersTold (mergeMavenDomainRecords (.leading []) [exampleDomain])
      exampleOwners := by
    apply owners_told (o := .leading [])
    intro ids ids'
    exact hall ⟨.leading [], .leading [], ids, .leading []⟩
      ⟨.leading [], .leading [], ids', .leading []⟩
  have hkept : Kept (mergeMavenDomainRecords (.leading []) [exampleDomain])
      "com.example".toList := by
    rw [kept_merged]
    exact ⟨exampleDomain, List.mem_singleton.mpr rfl, rfl⟩
  have hsame := htold _ hkept "u1".toList "u2".toList _ _ rfl rfl
    (example_leads (List.mem_cons_self ..))
    (example_leads (List.mem_cons_of_mem _ (List.mem_singleton.mpr rfl)))
  exact absurd hsame (by decide)

end RenoP.Maven
