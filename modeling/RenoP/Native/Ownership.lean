import RenoP.Native.Artifacts

/-!
# Owners of native resources

What each call on resources and members does when it succeeds, and that every resource keeps an
owner.
-/

namespace RenoP.Native

open RenoP.Database (Text)
open Fallible (refuse refuse_ok bind_ok refuse_bind_ok)

variable {texts : Texts} {env : Accounts} {t t' : Tables} {repository name target : Text}
  {level now : ℤ}

theorem nativeKey_ok {id : Text} (h : nativeKey texts repository name = .ok id) :
    id = texts.nativeID repository name := by
  unfold nativeKey at h
  split_ifs at h
  exact (Except.ok.inj h).symm

def effectiveLevel (texts : Texts) (env : Accounts) (t : Tables) (id actor : Text) : ℤ :=
  match nativeActorTx texts env actor with
  | .error _ => -1
  | .ok (userID, user) =>
    if user.isManager then permissionOwner else (t.members.load (id, userID)).getD (-1)

theorem effectiveLevel_of_actor {actor userID : Text} {user : AccountToken}
    (h : nativeActorTx texts env actor = .ok (userID, user)) (t : Tables) (id : Text) :
    effectiveLevel texts env t id actor =
      if user.isManager then permissionOwner else (t.members.load (id, userID)).getD (-1) := by
  unfold effectiveLevel
  rw [h]

theorem nativePermissionTx_ok {actor : Text} {required : ℤ} {granted : Text × ℤ}
    (h : nativePermissionTx texts env t repository name actor required = .ok granted) :
    t.resources.has (texts.nativeID repository name) = true ∧
      granted.2 = effectiveLevel texts env t (texts.nativeID repository name) actor ∧
      (required ≤ permissionOwner → required ≤ granted.2) := by
  obtain ⟨id, hkey, h⟩ := bind_ok h
  obtain ⟨⟨userID, user⟩, hactor, h⟩ := bind_ok h
  obtain ⟨hfound, h⟩ := refuse_bind_ok h
  rw [nativeKey_ok hkey] at h hfound
  refine ⟨Bool.not_eq_false _ |>.mp hfound, ?_⟩
  rw [effectiveLevel_of_actor hactor]
  split_ifs at h ⊢ with hmanager
  · cases h
    exact ⟨rfl, fun hle => hle⟩
  · split at h
    · cases h
    · rename_i level hload
      split_ifs at h with hless
      cases h
      rw [hload]
      exact ⟨rfl, fun _ => Int.not_lt.mp hless⟩

theorem createNativeResource_ok {format actor : Text}
    (h : createNativeResource texts env t repository format name actor now = .ok t') :
    ∃ userID user row, nativeActorTx texts env actor = .ok (userID, user) ∧
      t.resources.has (texts.nativeID repository name) = false ∧
      t' = { t with
        resources := t.resources.store (texts.nativeID repository name) row
        members := t.members.store (texts.nativeID repository name, userID) permissionOwner } := by
  obtain ⟨id, hkey, h⟩ := bind_ok h
  rw [nativeKey_ok hkey] at h
  dsimp only at h
  split at h
  · cases h
  · obtain ⟨-, h⟩ := refuse_bind_ok h
    obtain ⟨⟨userID, user⟩, hactor, h⟩ := bind_ok h
    obtain ⟨-, h⟩ := refuse_bind_ok h
    obtain ⟨hnew, h⟩ := refuse_bind_ok h
    obtain ⟨-, h⟩ := refuse_bind_ok h
    obtain ⟨-, h⟩ := refuse_bind_ok h
    cases h
    exact ⟨userID, user, _, hactor, Bool.eq_false_iff.mpr hnew, rfl⟩

/-- The member rows after `SetNativeMember`. -/
inductive MemberWrite (t : Tables) (id userID : Text) (level : ℤ) : GoMap (Text × Text) ℤ → Prop
  | insert (hfree : t.members.load (id, userID) = none) (hroom : t.memberCount id < 100) :
    MemberWrite t id userID level (t.members.store (id, userID) level)
  | remove (hlevel : level = -1) : MemberWrite t id userID level (t.members.delete (id, userID))
  | update : MemberWrite t id userID level
    (t.members.updateWhere (fun k _ => decide (k = (id, userID))) fun _ _ => level)

theorem writeMember_ok {id targetID : Text} {old : ℤ}
    (h : writeMember t id targetID old level = .ok t') :
    ∃ members, MemberWrite t id targetID level members ∧ t' = { t with members := members } := by
  unfold writeMember at h
  split_ifs at h with hinsert hremove
  · obtain ⟨hroom, h⟩ := refuse_bind_ok h
    obtain ⟨hfree, h⟩ := refuse_bind_ok h
    cases h
    have hnone := (GoMap.has_eq_false _ _).mp (Bool.eq_false_iff.mpr hfree)
    exact ⟨_, .insert hnone (Nat.lt_of_not_le hroom), rfl⟩
  · cases h
    exact ⟨_, .remove hremove, rfl⟩
  · cases h
    exact ⟨_, .update, rfl⟩

theorem setNativeMember_ok {actor : Text}
    (h : setNativeMember texts env t repository name actor target level now = .ok t') :
    ∃ targetID members, t.resources.has (texts.nativeID repository name) = true ∧
      (level = permissionOwner ∨
        t.members.load (texts.nativeID repository name, targetID) = some permissionOwner →
        permissionOwner ≤ effectiveLevel texts env t (texts.nativeID repository name) actor) ∧
      (t.members.load (texts.nativeID repository name, targetID) = some permissionOwner →
        level ≠ permissionOwner → 0 < t.otherOwners (texts.nativeID repository name) targetID) ∧
      MemberWrite t (texts.nativeID repository name) targetID level members ∧
      t' = { t with members := members } := by
  obtain ⟨-, h⟩ := refuse_bind_ok h
  obtain ⟨-, h⟩ := refuse_bind_ok h
  obtain ⟨-, -, h⟩ := bind_ok h
  obtain ⟨⟨userID, actorLevel⟩, hpermission, h⟩ := bind_ok h
  obtain ⟨targetID, -, h⟩ := bind_ok h
  obtain ⟨-, -, h⟩ := bind_ok h
  obtain ⟨howner, h⟩ := refuse_bind_ok h
  obtain ⟨hlast, h⟩ := refuse_bind_ok h
  obtain ⟨hfound, hlevel, -⟩ := nativePermissionTx_ok hpermission
  obtain ⟨members, hwrite, heq⟩ := writeMember_ok h
  dsimp only at hlevel howner
  rw [hlevel] at howner
  refine ⟨targetID, members, hfound, ?_, ?_, hwrite, heq⟩
  · intro hcases
    by_contra hless
    apply howner
    refine ⟨?_, Int.not_le.mp hless⟩
    rcases hcases with hnew | hold
    · exact Or.inl hnew
    · rw [hold]
      exact Or.inr rfl
  · intro hold hne
    apply Nat.pos_of_ne_zero
    intro hzero
    apply hlast
    rw [hold]
    exact ⟨rfl, hne, hzero⟩

theorem deleteNativeResource_ok {actor : Text} {pending : Bool}
    (h : deleteNativeResource texts env t repository name actor pending = .ok t') :
    t.resources.has (texts.nativeID repository name) = true ∧
      permissionOwner ≤ effectiveLevel texts env t (texts.nativeID repository name) actor ∧
      t' = {
        artifacts := t.artifacts.deleteWhere fun _ a =>
          decide (a.resourceID = texts.nativeID repository name)
        members := t.members.deleteWhere fun k _ =>
          decide (k.1 = texts.nativeID repository name)
        resources := t.resources.delete (texts.nativeID repository name) } := by
  obtain ⟨⟨userID, user⟩, -, h⟩ := bind_ok h
  obtain ⟨granted, hpermission, h⟩ := bind_ok h
  obtain ⟨-, h⟩ := refuse_bind_ok h
  obtain ⟨-, h⟩ := refuse_bind_ok h
  cases h
  obtain ⟨hfound, hlevel, hrequired⟩ := nativePermissionTx_ok hpermission
  have hle := hrequired (Int.le_refl _)
  rw [hlevel] at hle
  exact ⟨hfound, hle, rfl⟩

structure Owned (t : Tables) : Prop where
  owner : ∀ id, t.resources.has id = true →
    ∃ user, t.members.load (id, user) = some permissionOwner
  atMost : ∀ id, t.memberCount id ≤ 100
  placed : ∀ id user, t.members.has (id, user) = true → t.resources.has id = true

theorem owned_empty : Owned .empty := by
  constructor
  · exact nofun
  · exact fun id => Nat.zero_le 100
  · exact nofun

theorem memberCount_le {id : Text} (h : ∀ k, t'.members.has k = true → t.members.has k = true) :
    t'.memberCount id ≤ t.memberCount id := by
  have hle := GoMap.count_keys_le (q := fun k : Text × Text => decide (k.1 = id)) h
  exact hle

theorem memberCount_store {id userID : Text} (hfree : t.members.load (id, userID) = none)
    (id' : Text) (level : ℤ) (resources : GoMap Text NativeResource) :
    Tables.memberCount { t with
      resources := resources, members := t.members.store (id, userID) level } id' =
      t.memberCount id' + if id' = id then 1 else 0 := by
  have hstore := GoMap.count_store (fun (k : Text × Text) (_ : ℤ) => decide (k.1 = id')) t.members
    (id, userID) level
  rw [hfree, Option.any_none] at hstore
  unfold Tables.memberCount
  simp only [decide_eq_true_eq, Bool.false_eq_true, if_false, sub_zero] at hstore ⊢
  by_cases heq : id' = id
  · rw [if_pos heq.symm] at hstore
    rw [if_pos heq]
    omega
  · rw [if_neg (Ne.symm heq)] at hstore
    rw [if_neg heq]
    omega

theorem memberCount_eq_zero {id : Text} (h : ∀ user, t.members.has (id, user) = false) :
    t.memberCount id = 0 := by
  apply (GoMap.count_eq_zero_iff _ _).mpr
  intro k level hload
  apply Bool.eq_false_iff.mpr
  intro hk
  have hid : k.1 = id := of_decide_eq_true hk
  have hnone := (GoMap.has_eq_false _ _).mp (h k.2)
  rw [← hid] at hnone
  rw [hnone] at hload
  cases hload

theorem Owned.create (h : Owned t) {id userID : Text} (row : NativeResource)
    (hnew : t.resources.has id = false) :
    Owned { t with
      resources := t.resources.store id row
      members := t.members.store (id, userID) permissionOwner } := by
  have hnone : ∀ user, t.members.has (id, user) = false := by
    intro user
    apply Bool.eq_false_iff.mpr
    intro hhas
    rw [h.placed id user hhas] at hnew
    cases hnew
  have hrow : ∀ id', (t.resources.store id row).has id' = true ↔
      id' = id ∨ t.resources.has id' = true := by
    intro id'
    unfold GoMap.has
    rw [GoMap.load_store]
    split_ifs with heq
    · simp [heq]
    · simp [heq]
  constructor
  · intro id' hhas
    by_cases heq : id' = id
    · refine ⟨userID, ?_⟩
      rw [heq]
      exact GoMap.load_store_self _ _ _
    · obtain ⟨user, hload⟩ := h.owner id' (((hrow id').mp hhas).resolve_left heq)
      refine ⟨user, ?_⟩
      dsimp only
      rw [GoMap.load_store_ne _ _ (by simp [heq])]
      exact hload
  · intro id'
    rw [memberCount_store ((GoMap.has_eq_false _ _).mp (hnone userID))]
    have hbefore := h.atMost id'
    split_ifs with heq
    · rw [heq, memberCount_eq_zero hnone]
      decide
    · exact hbefore
  · intro id' user hhas
    apply (hrow id').mpr
    unfold GoMap.has at hhas
    rw [GoMap.load_store] at hhas
    split_ifs at hhas with heq
    · exact Or.inl (congrArg Prod.fst heq)
    · exact Or.inr (h.placed id' user hhas)

theorem MemberWrite.load {id userID : Text} {members : GoMap (Text × Text) ℤ}
    (h : MemberWrite t id userID level members) :
    (∀ k, k ≠ (id, userID) → members.load k = t.members.load k) ∧
      (members.load (id, userID) = some level ∨ level = -1 ∨ t.members.load (id, userID) = none) := by
  cases h with
  | insert hfree hroom =>
    exact ⟨fun k hk => GoMap.load_store_ne _ _ hk, Or.inr (Or.inr hfree)⟩
  | remove hlevel => exact ⟨fun k hk => GoMap.load_delete_ne _ hk, Or.inr (Or.inl hlevel)⟩
  | update =>
    constructor
    · intro k hk
      rw [GoMap.load_updateWhere]
      cases t.members.load k with
      | none => rfl
      | some old => simp [hk]
    · rw [GoMap.load_updateWhere]
      cases t.members.load (id, userID) with
      | none => exact Or.inr (Or.inr rfl)
      | some old => simp

theorem MemberWrite.written {id userID : Text} {members : GoMap (Text × Text) ℤ}
    (h : MemberWrite t id userID level members) :
    ∀ l, members.load (id, userID) = some l → l = level := by
  intro l hl
  cases h with
  | insert hfree hroom =>
    rw [GoMap.load_store_self] at hl
    exact (Option.some.inj hl).symm
  | remove hlevel =>
    rw [GoMap.load_delete_self] at hl
    cases hl
  | update =>
    rw [GoMap.load_updateWhere] at hl
    cases hload : t.members.load (id, userID) with
    | none =>
      rw [hload] at hl
      cases hl
    | some old =>
      rw [hload] at hl
      simp at hl
      exact hl.symm

theorem Owned.setMember (h : Owned t) {id userID : Text} {members : GoMap (Text × Text) ℤ}
    (hfound : t.resources.has id = true)
    (hlast : t.members.load (id, userID) = some permissionOwner → level ≠ permissionOwner →
      0 < t.otherOwners id userID)
    (hwrite : MemberWrite t id userID level members) : Owned { t with members := members } := by
  obtain ⟨hothers, hown⟩ := hwrite.load
  constructor
  · intro id' hhas
    obtain ⟨user, hload⟩ := h.owner id' hhas
    by_cases hk : (id', user) = (id, userID)
    · rw [hk] at hload
      by_cases hlevel : level = permissionOwner
      · rcases hown with hrow | hremoved | hfree
        · refine ⟨user, ?_⟩
          rw [hk, ← hlevel]
          exact hrow
        · rw [hremoved] at hlevel
          cases hlevel
        · rw [hfree] at hload
          cases hload
      · obtain ⟨k, level', hload', hother⟩ := GoMap.exists_of_count_pos (hlast hload hlevel)
        simp only [Bool.and_eq_true, decide_eq_true_eq] at hother
        obtain ⟨⟨hid, howner⟩, huser⟩ := hother
        refine ⟨k.2, ?_⟩
        have hne : (id', k.2) ≠ (id, userID) := fun heq => huser (congrArg Prod.snd heq)
        have heq : (id', k.2) = k := Prod.ext ((congrArg Prod.fst hk).trans hid.symm) rfl
        dsimp only
        rw [hothers _ hne, heq, hload', howner]
    · exact ⟨user, (hothers _ hk).trans hload⟩
  · intro id'
    have hbefore := h.atMost id'
    have hless : ∀ members', (∀ k, members'.has k = true → t.members.has k = true) →
        Tables.memberCount { t with members := members' } id' ≤ 100 := by
      intro members' hkeys
      have hle : Tables.memberCount { t with members := members' } id' ≤ t.memberCount id' :=
        memberCount_le hkeys
      exact Nat.le_trans hle hbefore
    cases hwrite with
    | insert hfree hroom =>
      rw [memberCount_store hfree]
      split_ifs with heq
      · rw [heq]
        exact hroom
      · exact hbefore
    | remove hlevel =>
      apply hless
      intro k hk
      unfold GoMap.has at hk ⊢
      rw [GoMap.load_delete] at hk
      split_ifs at hk
      · cases hk
      · exact hk
    | update =>
      apply hless
      intro k hk
      rw [GoMap.has_updateWhere] at hk
      exact hk
  · intro id' user hhas
    by_cases hk : (id', user) = (id, userID)
    · have hid : id' = id := congrArg Prod.fst hk
      rw [hid]
      exact hfound
    · apply h.placed id' user
      unfold GoMap.has at hhas ⊢
      rw [← hothers _ hk]
      exact hhas

theorem Owned.removal (h : Owned t) {gone : Text → Bool} {resources : GoMap Text NativeResource}
    {artifacts : GoMap Text NativeArtifact}
    (hresources : ∀ id, resources.has id = true ↔ t.resources.has id = true ∧ gone id = false) :
    Owned ⟨resources, t.members.deleteWhere fun k _ => gone k.1, artifacts⟩ := by
  have hload : ∀ k, (t.members.deleteWhere fun k _ => gone k.1).load k =
      if gone k.1 then none else t.members.load k := by
    intro k
    rw [GoMap.load_deleteWhere]
    cases t.members.load k with
    | none => simp
    | some level =>
      cases hgone : gone k.1 with
      | true => simp [Option.filter]
      | false => simp [Option.filter]
  have hhas : ∀ k, (t.members.deleteWhere fun k _ => gone k.1).has k = true →
      gone k.1 = false ∧ t.members.has k = true := by
    intro k hk
    unfold GoMap.has at hk ⊢
    rw [hload] at hk
    split_ifs at hk with hgone
    · cases hk
    · exact ⟨Bool.eq_false_iff.mpr hgone, hk⟩
  constructor
  · intro id hid
    obtain ⟨hbefore, hgone⟩ := (hresources id).mp hid
    obtain ⟨user, huser⟩ := h.owner id hbefore
    refine ⟨user, ?_⟩
    dsimp only
    rw [hload, hgone]
    exact huser
  · intro id
    exact Nat.le_trans (memberCount_le fun k hk => (hhas k hk).2) (h.atMost id)
  · intro id user hk
    obtain ⟨hgone, hbefore⟩ := hhas _ hk
    exact (hresources id).mpr ⟨h.placed id user hbefore, hgone⟩

theorem Owned.keep (h : Owned t) (hmembers : t'.members = t.members)
    (hresources : ∀ id, t'.resources.has id = t.resources.has id) : Owned t' := by
  constructor
  · intro id hhas
    rw [hresources] at hhas
    rw [hmembers]
    exact h.owner id hhas
  · intro id
    unfold Tables.memberCount
    rw [hmembers]
    exact h.atMost id
  · intro id user hhas
    rw [hmembers] at hhas
    rw [hresources]
    exact h.placed id user hhas

theorem Owned.resourceCall (h : Owned t) {call : ResourceCall}
    (hcall : resourceCall texts env t call = .ok t') : Owned t' := by
  cases call with
  | createNativeResource repository format name actor now =>
    obtain ⟨userID, user, row, -, hnew, rfl⟩ := createNativeResource_ok hcall
    exact h.create row hnew
  | setNativeMember repository name actor target level now =>
    obtain ⟨targetID, members, hfound, -, hlast, hwrite, rfl⟩ := setNativeMember_ok hcall
    exact h.setMember hfound hlast hwrite
  | deleteNativeResource repository name actor pending =>
    obtain ⟨-, -, rfl⟩ := deleteNativeResource_ok hcall
    refine @Owned.removal _ h (fun id => decide (id = texts.nativeID repository name)) _ _ ?_
    intro id
    unfold GoMap.has
    rw [GoMap.load_delete]
    split_ifs with heq
    · simp [heq]
    · simp [heq]

theorem has_setPublishedAt (resources : GoMap Text NativeResource) (id id' : Text) (now : ℤ) :
    (setPublishedAt resources id now).has id' = resources.has id' :=
  GoMap.has_updateWhere _ _ _ _

theorem nativeCall_keeps {call : Call} (hcall : nativeCall texts env t call = .ok t')
    (hresource : ∀ c, call ≠ .resource c) (hrepository : ∀ r, call ≠ .deleteNativeRepository r) :
    t'.members = t.members ∧ ∀ id, t'.resources.has id = t.resources.has id := by
  cases call with
  | resource call => exact absurd rfl (hresource call)
  | deleteNativeRepository repository => exact absurd rfl (hrepository repository)
  | updateNativeResource repository name actor description signingKey =>
    obtain ⟨-, h⟩ := refuse_bind_ok hcall
    obtain ⟨granted, -, h⟩ := bind_ok h
    cases h
    exact ⟨rfl, fun id => GoMap.has_updateWhere _ _ _ _⟩
  | setNativeResourceArchived repository name actor archived =>
    obtain ⟨granted, -, h⟩ := bind_ok hcall
    cases h
    exact ⟨rfl, fun id => GoMap.has_updateWhere _ _ _ _⟩
  | saveNativeArtifact artifact actor published =>
    obtain ⟨-, h⟩ := refuse_bind_ok hcall
    obtain ⟨granted, -, h⟩ := bind_ok h
    obtain ⟨t₁, hsave, h⟩ := bind_ok h
    have hrow : t₁.members = t.members ∧ t₁.resources = t.resources := by
      unfold saveRow at hsave
      dsimp only at hsave
      split at hsave
      · obtain ⟨-, hsave⟩ := refuse_bind_ok hsave
        cases hsave
        exact ⟨rfl, rfl⟩
      · obtain ⟨-, hsave⟩ := refuse_bind_ok hsave
        obtain ⟨-, hsave⟩ := refuse_bind_ok hsave
        cases hsave
        exact ⟨rfl, rfl⟩
    obtain ⟨hmembers, hresources⟩ := hrow
    cases published with
    | true =>
      cases h
      refine ⟨hmembers, fun id => ?_⟩
      rw [has_setPublishedAt, hresources]
    | false =>
      cases h
      exact ⟨hmembers, fun id => by rw [hresources]⟩
  | publishNativeArtifacts repository name version actor paths now =>
    obtain ⟨-, h⟩ := refuse_bind_ok hcall
    obtain ⟨granted, -, h⟩ := bind_ok h
    obtain ⟨artifacts, -, h⟩ := bind_ok h
    cases h
    exact ⟨rfl, fun id => has_setPublishedAt _ _ _ _⟩
  | approveNativeReview task now =>
    obtain ⟨granted, -, h⟩ := bind_ok hcall
    obtain ⟨id, -, h⟩ := bind_ok h
    obtain ⟨-, h⟩ := refuse_bind_ok h
    obtain ⟨artifacts, -, h⟩ := bind_ok h
    cases h
    exact ⟨rfl, fun id => has_setPublishedAt _ _ _ _⟩
  | deleteNativeArtifact repository path actor =>
    simp only [nativeCall, deleteNativeArtifact] at hcall
    split at hcall
    · cases hcall
      exact ⟨rfl, fun _ => rfl⟩
    · split at hcall
      · cases hcall
        exact ⟨rfl, fun _ => rfl⟩
      · split_ifs at hcall
        · cases hcall
          exact ⟨rfl, fun _ => rfl⟩
        · obtain ⟨granted, -, h⟩ := bind_ok hcall
          cases h
          exact ⟨rfl, fun _ => rfl⟩
  | deleteNativeArtifactsUnder repository pre =>
    obtain ⟨-, h⟩ := refuse_bind_ok hcall
    cases h
    exact ⟨rfl, fun _ => rfl⟩
  | deleteNativeVersionArtifacts repository name version made =>
    obtain ⟨id, -, h⟩ := bind_ok hcall
    obtain ⟨-, h⟩ := refuse_bind_ok h
    cases h
    exact ⟨rfl, fun _ => rfl⟩

theorem Owned.nativeCall (h : Owned t) {call : Call}
    (hcall : nativeCall texts env t call = .ok t') : Owned t' := by
  by_cases hresource : ∃ c, call = .resource c
  · obtain ⟨c, rfl⟩ := hresource
    exact h.resourceCall hcall
  by_cases hrepository : ∃ r, call = .deleteNativeRepository r
  · obtain ⟨repository, rfl⟩ := hrepository
    obtain ⟨-, hcall⟩ := refuse_bind_ok hcall
    obtain ⟨-, hcall⟩ := refuse_bind_ok hcall
    cases hcall
    refine @Owned.removal _ h (fun id =>
      (t.resources.load id).any fun r => decide (r.repository = repository)) _ _ ?_
    intro id
    unfold GoMap.has
    rw [GoMap.load_deleteWhere]
    cases hload : t.resources.load id with
    | none => simp
    | some r => by_cases heq : r.repository = repository <;> simp [Option.filter, heq]
  · obtain ⟨hmembers, hresources⟩ := nativeCall_keeps hcall
      (fun c hc => hresource ⟨c, hc⟩) (fun r hr => hrepository ⟨r, hr⟩)
    exact h.keep hmembers hresources

theorem Owned.next (h : Owned t) (call : Accounts × Call) : Owned (next texts t call) := by
  unfold Native.next
  split
  · exact h
  · rename_i t' hcall
    exact h.nativeCall hcall

theorem Owned.run (h : Owned t) (calls : List (Accounts × Call)) :
    Owned (calls.foldl (Native.next texts) t) := by
  induction calls generalizing t with
  | nil => exact h
  | cons call calls ih => exact ih (h.next call)

def ResourceCall.actor : ResourceCall → Text
  | .createNativeResource _ _ _ actor _ | .setNativeMember _ _ actor _ _ _
  | .deleteNativeResource _ _ actor _ => actor

theorem changes_owner_as_owner {call : ResourceCall}
    (hcall : resourceCall texts env t call = .ok t') {id user : Text}
    (hchanged : t'.members.load (id, user) ≠ t.members.load (id, user))
    (howner : t.members.load (id, user) = some permissionOwner ∨
      t'.members.load (id, user) = some permissionOwner) :
    permissionOwner ≤
      effectiveLevel texts env (if t.resources.has id = true then t else t') id call.actor := by
  cases call with
  | createNativeResource repository format name actor now =>
    obtain ⟨userID, account, row, hactor, hnew, rfl⟩ := createNativeResource_ok hcall
    by_cases hk : (id, user) = (texts.nativeID repository name, userID)
    · have hid : id = texts.nativeID repository name := congrArg Prod.fst hk
      rw [hid, hnew, if_neg Bool.false_ne_true]
      rw [show (ResourceCall.createNativeResource repository format name actor now).actor = actor from rfl,
        effectiveLevel_of_actor hactor]
      dsimp only
      rw [GoMap.load_store_self]
      split_ifs
      · exact Int.le_refl _
      · exact Int.le_refl _
    · exact absurd (GoMap.load_store_ne _ _ hk) hchanged
  | setNativeMember repository name actor target level now =>
    obtain ⟨targetID, members, hfound, hlevel, -, hwrite, rfl⟩ := setNativeMember_ok hcall
    obtain ⟨hothers, hown⟩ := hwrite.load
    by_cases hk : (id, user) = (texts.nativeID repository name, targetID)
    · have hid : id = texts.nativeID repository name := congrArg Prod.fst hk
      rw [hid, if_pos hfound]
      apply hlevel
      have hwritten := hwrite.written
      rw [hk] at howner
      rcases howner with hbefore | hafter
      · exact Or.inr hbefore
      · left
        exact (hwritten _ hafter).symm
    · exact absurd (hothers _ hk) hchanged
  | deleteNativeResource repository name actor pending =>
    obtain ⟨hfound, hlevel, rfl⟩ := deleteNativeResource_ok hcall
    by_cases hid : id = texts.nativeID repository name
    · rw [hid, if_pos hfound]
      exact hlevel
    · apply absurd _ hchanged
      dsimp only
      rw [GoMap.load_deleteWhere]
      cases t.members.load (id, user) with
      | none => rfl
      | some level => simp [Option.filter, hid]

/-- In every run every resource has an owner and at most 100 members, and no call on resources and
members by an actor below L4 adds, changes or removes a member of L4. -/
theorem native_resource_keeps_owner (texts : Texts) (calls : List (Accounts × Call)) :
    (∀ id r, (calls.foldl (Native.next texts) .empty).resources.load id = some r →
      (∃ user, (calls.foldl (Native.next texts) .empty).members.load (id, user) =
        some permissionOwner) ∧ (calls.foldl (Native.next texts) .empty).memberCount id ≤ 100) ∧
      ∀ before env call later, calls = before ++ (env, .resource call) :: later →
        ∀ t t', t = before.foldl (Native.next texts) .empty →
          t' = Native.next texts t (env, .resource call) → ∀ id user,
            t'.members.load (id, user) ≠ t.members.load (id, user) →
            t.members.load (id, user) = some permissionOwner ∨
              t'.members.load (id, user) = some permissionOwner →
            permissionOwner ≤
              effectiveLevel texts env (if t.resources.has id = true then t else t') id call.actor := by
  constructor
  · intro id r hload
    have h : Owned (calls.foldl (Native.next texts) .empty) := owned_empty.run calls
    exact ⟨h.owner id ((GoMap.has_eq_true _ _).mpr ⟨r, hload⟩), h.atMost id⟩
  · intro before env call later _ t t' _ ht' id user hchanged howner
    unfold Native.next at ht'
    split at ht'
    · rw [ht'] at hchanged
      exact absurd rfl hchanged
    · rename_i t₁ hcall
      rw [ht'] at hchanged howner ⊢
      exact changes_owner_as_owner hcall hchanged howner

end RenoP.Native
