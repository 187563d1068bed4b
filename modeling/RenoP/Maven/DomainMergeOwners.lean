import RenoP.Maven.DomainMerge

/-!
# The owner of a merged Maven domain

The owner of a domain is the first of its sorted members with the highest level, and `Leads` says so
without the sort.
-/

namespace RenoP.Maven

open RenoP.Database (Text)
open RenoP.Team (permissionRead)
open GoMap (RangeOrder)
open StableSort (sort Compares)

structure DomainsMerged (records merged : List DomainMigrationRecord) : Prop where
  once : (merged.map DomainMigrationRecord.domain).Nodup
  kept : ∀ name, (∃ m ∈ merged, m.domain = name) ↔ ∃ r ∈ records, r.domain = name
  verified : ∀ m ∈ merged, m.verified = true ↔
    ∃ r ∈ records, r.domain = m.domain ∧ r.verified = true

theorem domain_compares : Compares DomainMigrationRecord.before fun r =>
    toLex (!r.verified, toLex (r.createdAt, r.repository)) := by
  have hdates : Compares (fun a b : DomainMigrationRecord =>
      if a.createdAt ≠ b.createdAt then decide (a.createdAt < b.createdAt)
      else decide (a.repository < b.repository)) fun r => toLex (r.createdAt, r.repository) :=
    (StableSort.compares_decide DomainMigrationRecord.repository).lex
  have hall : Compares (fun a b : DomainMigrationRecord =>
      if (!a.verified) ≠ !b.verified then decide ((!a.verified) < !b.verified)
      else if a.createdAt ≠ b.createdAt then decide (a.createdAt < b.createdAt)
      else decide (a.repository < b.repository)) fun r =>
        toLex (!r.verified, toLex (r.createdAt, r.repository)) := hdates.lex
  intro a b
  rw [← hall a b]
  unfold DomainMigrationRecord.before
  dsimp only
  cases a.verified <;> cases b.verified <;> exact Iff.rfl

theorem absorb_fold (chosen : DomainMigrationRecord) (rest : List DomainMigrationRecord) :
    (rest.foldl .absorb chosen).domain = chosen.domain ∧
      (rest.foldl .absorb chosen).verified = chosen.verified := by
  induction rest generalizing chosen with
  | nil => exact ⟨rfl, rfl⟩
  | cons candidate rest ih => exact ih (chosen.absorb candidate)

theorem mergeCandidates_spec {candidates : List DomainMigrationRecord} (h : candidates ≠ []) :
    ∃ chosen, mergeCandidates candidates = some chosen ∧
      (∃ r ∈ candidates, chosen.domain = r.domain) ∧
      (chosen.verified = true ↔ ∃ r ∈ candidates, r.verified = true) := by
  have hperm := StableSort.sort_perm DomainMigrationRecord.before candidates
  have hsorted := domain_compares.sorted candidates
  unfold mergeCandidates
  cases hsort : sort DomainMigrationRecord.before candidates with
  | nil =>
    rw [hsort] at hperm
    exact absurd hperm.symm.eq_nil h
  | cons first rest =>
    rw [hsort] at hperm hsorted
    have hfirst := hperm.mem_iff.mp (List.mem_cons_self ..)
    obtain ⟨hdomain, hverified⟩ :=
      absorb_fold { first with repository := globalMavenRepository } rest
    refine ⟨_, rfl, ⟨first, hfirst, hdomain⟩, ?_⟩
    rw [hverified]
    constructor
    · exact fun htrue => ⟨first, hfirst, htrue⟩
    · rintro ⟨r, hr, htrue⟩
      rcases List.mem_cons.mp (hperm.mem_iff.mpr hr) with rfl | hrest
      · exact htrue
      · have hle := List.rel_of_pairwise_cons hsorted hrest
        rw [Prod.Lex.toLex_le_toLex] at hle
        dsimp only at hle ⊢
        rw [htrue] at hle
        cases hv : first.verified with
        | true => rfl
        | false =>
          rw [hv] at hle
          rcases hle with hlt | ⟨heq, -⟩
          · exact absurd hlt (by decide)
          · cases heq

theorem gathered_candidates {rows candidates : List DomainMigrationRecord}
    (h : GoMap.gathered (fun group record => group.getD [] ++ [record]) rows = some candidates) :
    candidates = rows :=
  GoMap.gathered_induction (P := fun rows candidates => candidates = rows) (fun _ => rfl)
    (fun rows row v hv => by rw [hv]; rfl) h

theorem domains_merged (o : RangeOrder Text (List DomainMigrationRecord))
    (records : List DomainMigrationRecord) :
    DomainsMerged records (mergeMavenDomainRecords o records) := by
  unfold mergeMavenDomainRecords
  generalize hgrouped : GoMap.gather DomainMigrationRecord.domain
    (fun group record => group.getD [] ++ [record]) records = grouped
  have hload : ∀ name, grouped.load name = GoMap.gathered
      (fun group record => group.getD [] ++ [record])
        (records.filter fun r => r.domain = name) := by
    intro name
    rw [← hgrouped]
    exact GoMap.load_gather ..
  have hgroup : ∀ e ∈ o.pairs grouped, ∃ chosen, mergeCandidates e.2 = some chosen ∧
      chosen.domain = e.1 ∧
      (chosen.verified = true ↔ ∃ r ∈ records, r.domain = e.1 ∧ r.verified = true) := by
    rintro ⟨name, candidates⟩ he
    have hsome := (o.mem_pairs _ _ _).mp he
    rw [hload] at hsome
    have hrows := gathered_candidates hsome
    have hne : candidates ≠ [] := by
      rw [hrows, ← GoMap.gathered_isSome, hsome]
      rfl
    obtain ⟨chosen, hchosen, ⟨r, hr, hdomain⟩, hverified⟩ := mergeCandidates_spec hne
    rw [hrows, List.mem_filter] at hr
    refine ⟨chosen, hchosen, hdomain.trans (of_decide_eq_true hr.2), hverified.trans ?_⟩
    rw [hrows]
    simp only [List.mem_filter, decide_eq_true_eq, and_assoc]
  have hnames : ((o.pairs grouped).filterMap fun e => mergeCandidates e.2).map
      DomainMigrationRecord.domain = o.keys grouped := by
    rw [List.map_filterMap, ← o.pairs_keys, ← List.filterMap_eq_map]
    apply List.filterMap_congr
    intro e he
    obtain ⟨chosen, hchosen, hdomain, -⟩ := hgroup e he
    rw [hchosen, Option.map_some, hdomain]
    rfl
  have hperm := StableSort.sort_perm (fun a b => decide (a.domain < b.domain))
    ((o.pairs grouped).filterMap fun e => mergeCandidates e.2)
  constructor
  · rw [(hperm.map _).nodup_iff, hnames]
    exact o.nodup grouped
  · intro name
    have hmem : (∃ m ∈ (o.pairs grouped).filterMap fun e => mergeCandidates e.2, m.domain = name) ↔
        name ∈ o.keys grouped := by
      rw [← hnames, List.mem_map]
    simp only [hperm.mem_iff]
    rw [hmem, o.mem_keys, GoMap.has, hload, GoMap.gathered_isSome, ne_eq, List.filter_eq_nil_iff]
    simp only [decide_eq_true_eq, not_forall, not_not, exists_prop]
  · intro m hm
    obtain ⟨e, he, hchosen⟩ := List.mem_filterMap.mp (hperm.mem_iff.mp hm)
    obtain ⟨chosen, hchosen', hdomain, hverified⟩ := hgroup e he
    rw [hchosen] at hchosen'
    cases hchosen'
    rw [hverified, hdomain]

def MemberMigrationRecord.demoted (m : MemberMigrationRecord) : MemberMigrationRecord :=
  if m.level = permissionOwner then { m with level := permissionManage } else m

def Settled (members settled : List MemberMigrationRecord) : Prop :=
  ∃ before, ∃ owner : MemberMigrationRecord, ∃ after, members = before ++ owner :: after ∧
    (∀ m ∈ before, m.level < owner.level) ∧ (∀ m ∈ after, m.level ≤ owner.level) ∧
    settled = before.map .demoted ++ { owner with level := permissionOwner } :: after.map .demoted

theorem demoted_of_ne {m : MemberMigrationRecord} (h : m.level ≠ permissionOwner) : m.demoted = m :=
  if_neg h

theorem soleOwner_found (members : List MemberMigrationRecord) :
    soleOwner true members = members.map .demoted := by
  induction members with
  | nil => rfl
  | cons m members ih =>
    unfold soleOwner
    rw [ih, List.map_cons, if_pos rfl]
    by_cases hm : m.level = permissionOwner
    · rw [if_pos hm, MemberMigrationRecord.demoted, if_pos hm]
    · rw [if_neg hm, demoted_of_ne hm]

theorem soleOwner_settled {members : List MemberMigrationRecord}
    (hlevels : ∀ m ∈ members, m.level ≤ permissionOwner)
    (howner : ∃ m ∈ members, m.level = permissionOwner) :
    ∃ before, ∃ owner : MemberMigrationRecord, ∃ after, members = before ++ owner :: after ∧
      owner.level = permissionOwner ∧ (∀ m ∈ before, m.level < permissionOwner) ∧
      soleOwner false members = before ++ owner :: after.map .demoted := by
  induction members with
  | nil =>
    obtain ⟨m, hm, -⟩ := howner
    cases hm
  | cons m members ih =>
    unfold soleOwner
    by_cases hm : m.level = permissionOwner
    · refine ⟨[], m, members, rfl, hm, nofun, ?_⟩
      rw [if_pos hm, if_neg Bool.false_ne_true, soleOwner_found]
      rfl
    · obtain ⟨w, hw, hlevel⟩ := howner
      have hrest : ∃ m' ∈ members, m'.level = permissionOwner := by
        rcases List.mem_cons.mp hw with rfl | hmem
        · exact absurd hlevel hm
        · exact ⟨w, hmem, hlevel⟩
      obtain ⟨before, owner, after, hsplit, htop, hbefore, hsettled⟩ :=
        ih (fun m' hm' => hlevels m' (List.mem_cons_of_mem m hm')) hrest
      refine ⟨m :: before, owner, after, by rw [hsplit]; rfl, htop, ?_, ?_⟩
      · intro m' hm'
        rcases List.mem_cons.mp hm' with rfl | hin
        · exact lt_of_le_of_ne (hlevels _ (List.mem_cons_self ..)) hm
        · exact hbefore m' hin
      · rw [if_neg hm, hsettled]
        rfl

theorem strongestFrom_split {before mid members : List MemberMigrationRecord}
    {owner : MemberMigrationRecord} (hbefore : ∀ m ∈ before, m.level < owner.level)
    (hmid : ∀ m ∈ mid, m.level ≤ owner.level) :
    ∃ before', ∃ owner' : MemberMigrationRecord, ∃ after',
      before ++ owner :: mid ++ members = before' ++ owner' :: after' ∧
      strongestFrom before.length owner.level (before ++ owner :: mid).length members =
        before'.length ∧
      (∀ m ∈ before', m.level < owner'.level) ∧ ∀ m ∈ after', m.level ≤ owner'.level := by
  induction members generalizing before mid owner with
  | nil => exact ⟨before, owner, mid, List.append_nil _, rfl, hbefore, hmid⟩
  | cons m members ih =>
    unfold strongestFrom
    split_ifs with hm
    · have hless : ∀ m' ∈ before ++ owner :: mid, m'.level < m.level := by
        intro m' hm'
        rcases List.mem_append.mp hm' with hin | hin
        · exact (hbefore m' hin).trans hm
        · rcases List.mem_cons.mp hin with rfl | hin
          · exact hm
          · exact (hmid m' hin).trans_lt hm
      have hnone : ∀ m' ∈ ([] : List MemberMigrationRecord), m'.level ≤ m.level := nofun
      obtain ⟨before', owner', after', hsplit, hindex, hrest⟩ := ih hless hnone
      refine ⟨before', owner', after', ?_, ?_, hrest⟩
      · rw [← hsplit, List.append_assoc, List.append_assoc, List.append_assoc]
        rfl
      · rw [← hindex]
        simp only [List.length_append, List.length_cons, List.length_nil]
    · have hle : ∀ m' ∈ mid ++ [m], m'.level ≤ owner.level := by
        intro m' hm'
        rcases List.mem_append.mp hm' with hin | hin
        · exact hmid m' hin
        · rw [List.mem_singleton.mp hin]
          exact not_lt.mp hm
      obtain ⟨before', owner', after', hsplit, hindex, hrest⟩ := ih hbefore hle
      refine ⟨before', owner', after', ?_, ?_, hrest⟩
      · rw [← hsplit, List.append_assoc, List.append_assoc, List.cons_append, List.cons_append,
          List.append_assoc]
        rfl
      · rw [← hindex]
        simp only [List.length_append, List.length_cons, List.length_nil]
        rfl

theorem modify_middle {A : Type} (before after : List A) (x : A) (f : A → A) :
    (before ++ x :: after).modify before.length f = before ++ f x :: after := by
  induction before with
  | nil => rfl
  | cons y before ih => exact congrArg (y :: ·) ih

theorem map_demoted {members : List MemberMigrationRecord}
    (h : ∀ m ∈ members, m.level ≠ permissionOwner) : members.map .demoted = members :=
  (List.map_congr_left fun m hm => demoted_of_ne (h m hm)).trans (List.map_id _)

theorem settleOwner_settled {members : List MemberMigrationRecord} (hne : members ≠ [])
    (hlevels : ∀ m ∈ members, m.level ≤ permissionOwner) :
    Settled members (settleOwner members) := by
  unfold settleOwner
  split_ifs with hany
  · obtain ⟨m, hm, hlevel⟩ := List.any_eq_true.mp hany
    obtain ⟨before, owner, after, hsplit, htop, hbefore, hsettled⟩ :=
      soleOwner_settled hlevels ⟨m, hm, of_decide_eq_true hlevel⟩
    refine ⟨before, owner, after, hsplit, ?_, ?_, ?_⟩
    · rw [htop]
      exact hbefore
    · intro m' hm'
      rw [htop]
      apply hlevels m'
      rw [hsplit]
      exact List.mem_append_right _ (List.mem_cons_of_mem owner hm')
    · rw [hsettled, map_demoted fun m hm => (hbefore m hm).ne, ← htop]
  · have hnone : ∀ m ∈ members, m.level ≠ permissionOwner := by
      intro m hm hlevel
      exact hany (List.any_eq_true.mpr ⟨m, hm, decide_eq_true hlevel⟩)
    cases members with
    | nil => exact absurd rfl hne
    | cons m members =>
      obtain ⟨before, owner, after, hsplit, hindex, hbefore, hafter⟩ :=
        @strongestFrom_split [] [] members m nofun nofun
      have hall : m :: members = before ++ owner :: after := hsplit
      have hstrongest : strongest (m :: members) = before.length := hindex
      refine ⟨before, owner, after, hall, hbefore, hafter, ?_⟩
      rw [hstrongest, hall, modify_middle]
      rw [hall] at hnone
      rw [map_demoted fun m hm => hnone m (List.mem_append_left _ hm),
        map_demoted fun m hm => hnone m (List.mem_append_right _ (List.mem_cons_of_mem owner hm))]

theorem member_compares : Compares MemberMigrationRecord.before fun m =>
    toLex (m.addedAt, m.username) :=
  (StableSort.compares_decide MemberMigrationRecord.username).lex

def MemberMigrationRecord.precedes (a b : MemberMigrationRecord) : Prop :=
  clampLevel b.level < clampLevel a.level ∨
    clampLevel a.level = clampLevel b.level ∧
      (a.addedAt < b.addedAt ∨ a.addedAt = b.addedAt ∧ a.username < b.username)

def Leads (standing : Text → Option MemberMigrationRecord) (m : MemberMigrationRecord) : Prop :=
  ∀ x m', standing x = some m' → ¬m'.precedes m

/-- A member of a domain that the identity `owner` owns. -/
def placed (domain owner : Text) (e : Text × MemberMigrationRecord) : MemberMigrationRecord :=
  if e.1 = owner then { memberOf domain e.2 with level := permissionOwner }
  else (memberOf domain e.2).demoted

theorem precedes_iff (a b : MemberMigrationRecord) :
    a.precedes b ↔ clampLevel b.level < clampLevel a.level ∨
      clampLevel a.level = clampLevel b.level ∧
        toLex (a.addedAt, a.username) < toLex (b.addedAt, b.username) := by
  rw [Prod.Lex.toLex_lt_toLex]
  exact Iff.rfl

theorem identityKey_memberOf (domain : Text) (m : MemberMigrationRecord) :
    (memberOf domain m).identityKey = m.identityKey := rfl

section

variable {members : GoMap Text MemberMigrationRecord} {ids : RangeOrder Text MemberMigrationRecord}
  {domain owner : Text} {m : MemberMigrationRecord}
  {before after : List MemberMigrationRecord}

def sortedMembers (ids : RangeOrder Text MemberMigrationRecord) (domain : Text)
    (members : GoMap Text MemberMigrationRecord) : List MemberMigrationRecord :=
  sort MemberMigrationRecord.before ((ids.pairs members).map fun e => memberOf domain e.2)

theorem mem_sortedMembers (r : MemberMigrationRecord) :
    r ∈ sortedMembers ids domain members ↔
      ∃ x m, members.load x = some m ∧ memberOf domain m = r := by
  unfold sortedMembers
  rw [(StableSort.sort_perm _ _).mem_iff, List.mem_map, Prod.exists]
  simp only [ids.mem_pairs]

theorem sortedMembers_keys (hkeys : ∀ x m, members.load x = some m → m.identityKey = x) :
    ((sortedMembers ids domain members).map MemberMigrationRecord.identityKey).Nodup := by
  have hlist : ((ids.pairs members).map fun e => memberOf domain e.2).map
      MemberMigrationRecord.identityKey = ids.keys members := by
    rw [List.map_map, ← ids.pairs_keys]
    apply List.map_congr_left
    rintro ⟨x, m⟩ he
    exact hkeys x m ((ids.mem_pairs _ _ _).mp he)
  unfold sortedMembers
  rw [((StableSort.sort_perm _ _).map _).nodup_iff, hlist]
  exact ids.nodup members

theorem leads_of_sorted (hsplit : sortedMembers ids domain members =
      before ++ memberOf domain m :: after)
    (hbefore : ∀ r ∈ before, r.level < (memberOf domain m).level)
    (hafter : ∀ r ∈ after, r.level ≤ (memberOf domain m).level) : Leads members.load m := by
  intro x m' hload hprecedes
  have hm' : memberOf domain m' ∈ sortedMembers ids domain members :=
    (mem_sortedMembers _).mpr ⟨x, m', hload, rfl⟩
  have hsorted := member_compares.sorted ((ids.pairs members).map fun e => memberOf domain e.2)
  rw [precedes_iff] at hprecedes
  unfold sortedMembers at hsplit hm'
  rw [hsplit] at hm' hsorted
  rcases List.mem_append.mp hm' with hin | hin
  · have hless := hbefore _ hin
    change clampLevel m'.level < clampLevel m.level at hless
    omega
  · rcases List.mem_cons.mp hin with heq | hin
    · have hlevel := congrArg MemberMigrationRecord.level heq
      have hdate := congrArg MemberMigrationRecord.addedAt heq
      have hname := congrArg MemberMigrationRecord.username heq
      change clampLevel m'.level = clampLevel m.level at hlevel
      change m'.addedAt = m.addedAt at hdate
      change m'.username = m.username at hname
      rw [hlevel, hdate, hname] at hprecedes
      rcases hprecedes with hless | ⟨-, hless⟩
      · exact lt_irrefl _ hless
      · exact lt_irrefl _ hless
    · have hle := hafter _ hin
      have hkey := List.rel_of_pairwise_cons (List.pairwise_append.mp hsorted).2.1 hin
      change clampLevel m'.level ≤ clampLevel m.level at hle
      rcases hprecedes with hless | ⟨-, hless⟩
      · omega
      · exact absurd hless (not_lt.mpr hkey)

theorem placed_of_sorted (hkeys : ∀ x m, members.load x = some m → m.identityKey = x)
    (hload : members.load owner = some m)
    (hsplit : sortedMembers ids domain members = before ++ memberOf domain m :: after) :
    (before.map MemberMigrationRecord.demoted ++
      { memberOf domain m with level := permissionOwner } ::
        after.map MemberMigrationRecord.demoted).Perm
      ((ids.pairs members).map (placed domain owner)) := by
  have hnodup := @sortedMembers_keys members ids domain hkeys
  have howner : (memberOf domain m).identityKey = owner := hkeys owner m hload
  have hmap : before.map MemberMigrationRecord.demoted ++
      { memberOf domain m with level := permissionOwner } ::
        after.map MemberMigrationRecord.demoted = (sortedMembers ids domain members).map fun r =>
        if r.identityKey = owner then { r with level := permissionOwner } else r.demoted := by
    rw [hsplit, List.map_append, List.map_cons, if_pos howner]
    rw [hsplit, List.map_append, List.map_cons, List.nodup_append, howner] at hnodup
    obtain ⟨-, hafterkeys, hdisjoint⟩ := hnodup
    congr 1
    · apply List.map_congr_left
      intro r hr
      rw [if_neg (hdisjoint _ (List.mem_map_of_mem hr) owner (List.mem_cons_self ..))]
    · congr 1
      apply List.map_congr_left
      intro r hr
      rw [if_neg]
      rintro rfl
      exact (List.nodup_cons.mp hafterkeys).1 (List.mem_map_of_mem hr)
  rw [hmap]
  apply ((StableSort.sort_perm _ _).map _).trans
  rw [List.map_map]
  apply List.Perm.of_eq
  apply List.map_congr_left
  rintro ⟨x, m'⟩ he
  have hx := hkeys x m' ((ids.mem_pairs _ _ _).mp he)
  unfold placed
  dsimp only [Function.comp_apply]
  rw [identityKey_memberOf, hx]

theorem first_of_sorted (hkeys : ∀ x m, members.load x = some m → m.identityKey = x)
    (hload : members.load owner = some m) (hleads : Leads members.load m)
    (hsplit : sortedMembers ids domain members = before ++ memberOf domain m :: after)
    (hbefore : ∀ r ∈ before, r.level < (memberOf domain m).level) {x : Text}
    {m' : MemberMigrationRecord} {rest : List (Text × MemberMigrationRecord)}
    (hpairs : ids.pairs members = (x, m') :: rest) (hleads' : Leads members.load m') :
    x = owner := by
  by_contra hne
  have hload' : members.load x = some m' := by
    rw [← ids.mem_pairs, hpairs]
    exact List.mem_cons_self ..
  have hrest : (owner, m) ∈ rest := by
    have hin := (ids.mem_pairs _ _ _).mpr hload
    rw [hpairs] at hin
    rcases List.mem_cons.mp hin with heq | hin
    · exact absurd (congrArg Prod.fst heq).symm hne
    · exact hin
  have hpair : [memberOf domain m', memberOf domain m].Sublist
      ((ids.pairs members).map fun e => memberOf domain e.2) := by
    rw [hpairs, List.map_cons]
    exact List.Sublist.cons_cons _
      (List.singleton_sublist.mpr (List.mem_map_of_mem (f := fun e => memberOf domain e.2) hrest))
  have hsame := hleads x m' hload'
  have hsame' := hleads' owner m hload
  rw [precedes_iff, not_or, not_and, not_lt, not_lt] at hsame hsame'
  have hlevel : clampLevel m.level = clampLevel m'.level := le_antisymm hsame'.1 hsame.1
  have hstable := member_compares.stable
    (a := memberOf domain m') (b := memberOf domain m) (hsame'.2 hlevel) hpair
  have hin := StableSort.mem_of_pair hsplit (List.Nodup.of_map _ (sortedMembers_keys hkeys)) hstable
  have hless := hbefore _ hin
  change clampLevel m'.level < clampLevel m.level at hless
  omega

theorem domainMembers_spec (hkeys : ∀ x m, members.load x = some m → m.identityKey = x)
    (hne : ∃ x m, members.load x = some m) (ids : RangeOrder Text MemberMigrationRecord)
    (domain : Text) :
    ∃ owner m, members.load owner = some m ∧ Leads members.load m ∧
      (domainMembers ids domain members).Perm ((ids.pairs members).map (placed domain owner)) ∧
      ∀ x m' rest, ids.pairs members = (x, m') :: rest → Leads members.load m' → x = owner := by
  have hsome : sortedMembers ids domain members ≠ [] := by
    obtain ⟨x, m, hload⟩ := hne
    exact List.ne_nil_of_mem ((mem_sortedMembers _).mpr ⟨x, m, hload, rfl⟩)
  have hlevels : ∀ m ∈ sortedMembers ids domain members, m.level ≤ permissionOwner := by
    intro r hr
    obtain ⟨x, m, -, rfl⟩ := (mem_sortedMembers r).mp hr
    exact min_le_right _ _
  obtain ⟨before, w, after, hsplit, hbefore, hafter, hsettled⟩ :=
    settleOwner_settled hsome hlevels
  have hw : w ∈ sortedMembers ids domain members := by
    rw [hsplit]
    exact List.mem_append_right _ (List.mem_cons_self ..)
  obtain ⟨owner, m, hload, rfl⟩ := (mem_sortedMembers w).mp hw
  have hleads := leads_of_sorted hsplit hbefore hafter
  refine ⟨owner, m, hload, hleads, ?_, ?_⟩
  · have hmembers : domainMembers ids domain members = _ := hsettled
    rw [hmembers]
    exact placed_of_sorted hkeys hload hsplit
  · intro x m' rest hpairs hleads'
    exact first_of_sorted hkeys hload hleads hsplit hbefore hpairs hleads'

end

end RenoP.Maven
