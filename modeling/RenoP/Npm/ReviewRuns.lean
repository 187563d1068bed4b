import RenoP.Npm.Revisions
import RenoP.Npm.Versions

/-!
# Reviewed publications of an npm package

Clients and reviews on one package, in any order of their transactions. An approval reads the
package, publishes, and takes the publication back when its decision fails,
`internal/service/ticket/routes.go` and `internal/service/npm/publication_review.go`.
-/

namespace RenoP.Npm

open RenoP.Database (Text)
open Fallible (refuse)
open Runs (Along Through)

structure Review where
  username : Text
  description : Text
  publication : Publication
  tags : GoMap Text Text

def Review.version (r : Review) : Text := r.publication.version

def Review.request (r : Review) : Request :=
  .publish r.username r.description r.publication r.tags

structure Traits where
  versions : Text → Option NPMVersion
  tags : Text → Option Text
  description : Text
  publisher : Text
  latest : Text

def traits (t : Tables) : Traits where
  versions := liveRow t.versions
  tags := t.tags.load
  description := t.package.elim [] fun pkg => pkg.description
  publisher := t.package.elim [] fun pkg => pkg.publisher
  latest := t.package.elim [] fun pkg => pkg.latestVersion

def follow {α : Type} [DecidableEq α] (kept before after : α) : α :=
  if after = before then kept else after

def Traits.follow (kept before after : Traits) : Traits where
  versions w := Npm.follow (kept.versions w) (before.versions w) (after.versions w)
  tags tag := Npm.follow (kept.tags tag) (before.tags tag) (after.tags tag)
  description := Npm.follow kept.description before.description after.description
  publisher := Npm.follow kept.publisher before.publisher after.publisher
  latest := Npm.follow kept.latest before.latest after.latest

/-- An approval between its transactions. `others` is what it read with the changes that the
transactions of others have made since: a history, which no code reads. -/
structure Approval where
  review : Review
  read : Tables
  published : Bool
  others : Traits

def Approval.version (a : Approval) : Text := a.review.version

structure Change where
  before : Tables
  outside : Outside
  request : Request
  after : Tables

structure Session where
  tables : Tables
  approvals : ℕ → Option Approval
  seen : List Tables
  log : List Change

def Session.start (t : Tables) : Session := ⟨t, fun _ => none, [t], []⟩

def Session.set (s : Session) (id : ℕ) (a : Option Approval) : Session :=
  { s with approvals := Function.update s.approvals id a }

def Session.settle (s : Session) (t : Tables) : Session where
  tables := t
  approvals id := (s.approvals id).map fun a =>
    { a with others := a.others.follow (traits s.tables) (traits t) }
  seen := t :: s.seen
  log := s.log

def Session.carryOut (s : Session) (o : Outside) (r : Request) (t : Tables) : Session :=
  { s.settle t with log := ⟨s.tables, o, r, t⟩ :: s.log }

inductive Step where
  | call (o : Outside) (r : Request)
  | read (id : ℕ) (review : Review)
  | publish (id : ℕ) (o : Outside)
  | decide (id : ℕ) (order : GoMap.RangeOrder Text Text) (decided : Bool)

section Model
variable (lib : Library)

def Session.next (s : Session) : Step → Session
  | .call o r =>
    match r.apply lib o s.tables with
    | .ok t => s.carryOut o r t
    | .error _ => s
  | .read id review =>
    match s.approvals id, s.tables.package with
    | none, some _ => s.set id (some ⟨review, s.tables, false, traits s.tables⟩)
    | _, _ => s
  | .publish id o =>
    match s.approvals id with
    | none => s
    | some a =>
      if a.published then s
      else
        match a.review.request.apply lib o s.tables with
        | .ok t => (s.carryOut o a.review.request t).set id (some { a with published := true })
        | .error _ => s.set id none
  | .decide id order decided =>
    match s.approvals id with
    | none => s
    | some a =>
      if a.published = false then s
      else if decided then s.set id none
      else
        match removeApprovedPublicationMetadata lib order s.tables a.version a.read.package
          a.read.tags with
        | .ok t => (s.set id none).settle t
        | .error _ => s.set id none

def OneView (seen : List Tables) : Prop :=
  ∀ t ∈ seen, ∀ u ∈ seen, revision t = revision u → view t = view u

/-- The reviewed version and its tags are gone, and what others changed is still in effect. -/
structure Approval.Undone (a : Approval) (t : Tables) : Prop where
  version : t.versions.load a.version = none
  tags : ∀ tag, t.tags.load tag ≠ some a.version
  versions : ∀ w, w ≠ a.version → (traits t).versions w = a.others.versions w
  changed : ∀ tag, a.others.tags tag ≠ some a.version → (traits t).tags tag = a.others.tags tag
  description : (traits t).description = a.others.description
  publisher : (traits t).publisher = a.others.publisher
  latest : a.others.latest ≠ a.version → (traits t).latest = a.others.latest

/-- A request that carries the revision its client read meets the view of that client; a rollback
takes back the publication and nothing else. -/
def Step.Right (s : Session) : Step → Prop
  | .call o r =>
    ∀ t, r.apply lib o s.tables = .ok t → r.guarded = true → 0 < o.expectedRevision →
      ∀ u ∈ s.seen, revision u = o.expectedRevision → view u = view s.tables
  | .decide id order false =>
    ∀ a, s.approvals id = some a → a.published = true →
      a.Undone (s.next lib (.decide id order false)).tables
  | _ => True

/-- Others have left the package as the approval read it, save for tags or a latest version that
they pointed at the reviewed version; that version was not live, and the tags that were read come
back under their own names. -/
structure Approval.Undisturbed (a : Approval) : Prop where
  version : (traits a.read).versions a.version = none
  versions : ∀ w, w ≠ a.version → a.others.versions w = (traits a.read).versions w
  tags : ∀ tag, a.others.tags tag = (traits a.read).tags tag ∨ a.others.tags tag = some a.version
  description : a.others.description = (traits a.read).description
  publisher : a.others.publisher = (traits a.read).publisher
  latest : a.others.latest = (traits a.read).latest ∨ a.others.latest = a.version
  names : ∀ tag version, a.read.tags.load tag = some version → sanitizeTag lib tag = tag

def Session.Repeats (s : Session) (o : Outside) (r : Request) : Prop :=
  ∀ e ∈ s.log, revision e.before = revision s.tables → e.request = r ∧ r.SameOrder e.outside o

def Step.Safe (s : Session) : Step → Prop
  | .call o r => ∀ t, r.apply lib o s.tables = .ok t → s.Repeats o r
  | .publish id o =>
    ∀ a t, s.approvals id = some a → a.published = false →
      a.review.request.apply lib o s.tables = .ok t → s.Repeats o a.review.request
  | .decide id _ false =>
    ∀ a, s.approvals id = some a → a.published = true → a.Undisturbed lib
  | _ => True

end Model

variable {lib : Library} {o : Outside} {s : Session} {t t' : Tables}

/-- An approval is where the package has all that others changed, save for the tags that its own
publication moved. -/
structure Approval.Open (a : Approval) (t : Tables) : Prop where
  waiting : a.published = false → a.others = traits t
  row : a.published = true → a.version ≠ [] ∧ t.versions.has a.version = true
  versions : ∀ w, w ≠ a.version → a.others.versions w = liveRow t.versions w
  tags : ∀ tag, a.others.tags tag = t.tags.load tag ∨ t.tags.load tag = some a.version

/-- The revisions of a run that began at `base`. -/
structure Accounted (lib : Library) (base : ℤ) (s : Session) : Prop where
  current : s.tables ∈ s.seen
  stored : ∀ t ∈ s.seen, Stored t
  oneView : OneView s.seen
  reached : ∀ t ∈ s.seen, base ≤ revision t ∧
    (revision t = base ∨ ∃ e ∈ s.log, revision e.before + 1 = revision t)
  log : ∀ e ∈ s.log, e.before ∈ s.seen ∧ e.after ∈ s.seen ∧
    e.request.Applied lib e.outside e.before e.after
  read : ∀ id a, s.approvals id = some a → a.read ∈ s.seen
  approvals : ∀ id a, s.approvals id = some a → a.Open s.tables
  apart : ∀ id id' a a', s.approvals id = some a → s.approvals id' = some a' →
    a.published = true → a'.published = true → a.version = a'.version → id = id'

theorem accounted_start (ht : Stored t) : Accounted lib (revision t) (Session.start t) where
  current := List.mem_singleton.mpr rfl
  stored u hu := by
    rw [List.mem_singleton.mp hu]
    exact ht
  oneView u hu u' hu' _ := by rw [List.mem_singleton.mp hu, List.mem_singleton.mp hu']
  reached u hu := by
    rw [List.mem_singleton.mp hu]
    exact ⟨le_rfl, Or.inl rfl⟩
  log e he := by cases he
  read id a ha := by cases ha
  approvals id a ha := by cases ha
  apart id id' a a' ha := by cases ha

variable {base : ℤ}

theorem follow_self {α : Type} [DecidableEq α] (before after : α) :
    follow before before after = after := by
  unfold follow
  split_ifs with h
  · exact h.symm
  · rfl

theorem Traits.follow_self (before after : Traits) : before.follow before after = after := by
  simp only [Traits.follow, Npm.follow_self]

theorem Approval.Open.follow {a : Approval} (h : a.Open t)
    (hrow : a.published = true → t'.versions.has a.version = true) :
    Approval.Open { a with others := a.others.follow (traits t) (traits t') } t' := by
  constructor
  · intro hwaiting
    rw [h.waiting hwaiting]
    exact Traits.follow_self _ _
  · exact fun hpublished => ⟨(h.row hpublished).1, hrow hpublished⟩
  · intro w hw
    show Npm.follow (a.others.versions w) (liveRow t.versions w) (liveRow t'.versions w) = _
    rw [h.versions w hw]
    exact Npm.follow_self _ _
  · intro tag
    show Npm.follow (a.others.tags tag) (t.tags.load tag) (t'.tags.load tag) = _ ∨ _
    rcases h.tags tag with hsame | hmoved
    · rw [hsame]
      exact Or.inl (Npm.follow_self _ _)
    · unfold Npm.follow
      split_ifs with hstill
      · exact Or.inr (hstill.trans hmoved)
      · exact Or.inl rfl

theorem Session.settle_approvals {id : ℕ} {a' : Approval}
    (h : (s.settle t').approvals id = some a') : ∃ a, s.approvals id = some a ∧
      a' = { a with others := a.others.follow (traits s.tables) (traits t') } := by
  obtain ⟨a, ha, heq⟩ := Option.map_eq_some_iff.mp h
  exact ⟨a, ha, heq.symm⟩

theorem OneView.cons {seen : List Tables} (h : OneView seen)
    (hnew : ∀ u ∈ seen, revision u = revision t → view u = view t) : OneView (t :: seen) := by
  intro u hu u' hu' hrevision
  rcases List.mem_cons.mp hu with rfl | hmem
  · rcases List.mem_cons.mp hu' with rfl | hmem'
    · rfl
    · exact (hnew u' hmem' hrevision.symm).symm
  · rcases List.mem_cons.mp hu' with rfl | hmem'
    · exact hnew u hmem hrevision
    · exact h u hmem u' hmem' hrevision

theorem Accounted.moved {log : List Change} (hs : Accounted lib base s) (hstored : Stored t')
    (hview : ∀ u ∈ s.seen, revision u = revision t' → view u = view t')
    (hrows : ∀ id a, s.approvals id = some a → a.published = true →
      t'.versions.has a.version = true)
    (hreached : base ≤ revision t' ∧
      (revision t' = base ∨ ∃ e ∈ log, revision e.before + 1 = revision t'))
    (hold : ∀ e ∈ s.log, e ∈ log)
    (hlog : ∀ e ∈ log, e ∈ s.log ∨ e.before ∈ s.seen ∧ e.after = t' ∧
      e.request.Applied lib e.outside e.before e.after) :
    Accounted lib base { s.settle t' with log := log } := by
  constructor
  · exact List.mem_cons_self ..
  · intro u hu
    rcases List.mem_cons.mp hu with rfl | hmem
    · exact hstored
    · exact hs.stored u hmem
  · exact hs.oneView.cons hview
  · intro u hu
    rcases List.mem_cons.mp hu with rfl | hmem
    · exact hreached
    · obtain ⟨hbase, hfrom⟩ := hs.reached u hmem
      refine ⟨hbase, hfrom.imp_right ?_⟩
      rintro ⟨e, he, hrevision⟩
      exact ⟨e, hold e he, hrevision⟩
  · intro e he
    rcases hlog e he with hmem | ⟨hbefore, hafter, happlied⟩
    · obtain ⟨hbefore, hafter, happlied⟩ := hs.log e hmem
      exact ⟨List.mem_cons_of_mem _ hbefore, List.mem_cons_of_mem _ hafter, happlied⟩
    · rw [hafter] at happlied ⊢
      exact ⟨List.mem_cons_of_mem _ hbefore, List.mem_cons_self .., happlied⟩
  · intro id a' ha'
    obtain ⟨a, ha, rfl⟩ := Session.settle_approvals ha'
    exact List.mem_cons_of_mem _ (hs.read id a ha)
  · intro id a' ha'
    obtain ⟨a, ha, rfl⟩ := Session.settle_approvals ha'
    exact (hs.approvals id a ha).follow (hrows id a ha)
  · intro id id' a₁ a₁' h₁ h₁'
    obtain ⟨a, ha, rfl⟩ := Session.settle_approvals h₁
    obtain ⟨a', ha', rfl⟩ := Session.settle_approvals h₁'
    exact hs.apart id id' a a' ha ha'

theorem Accounted.view_of_applied {r : Request} (hs : Accounted lib base s)
    (happlied : r.Applied lib o s.tables t') (hrepeats : s.Repeats o r) :
    ∀ u ∈ s.seen, revision u = revision t' → view u = view t' := by
  intro u hu hrevision
  rw [happlied.next] at hrevision
  obtain ⟨-, hbase | ⟨e, he, hbefore⟩⟩ := hs.reached u hu
  · have hleast := (hs.reached _ hs.current).1
    omega
  · have hsame : revision e.before = revision s.tables := by omega
    obtain ⟨hseen, hseen', happlied'⟩ := hs.log e he
    obtain ⟨hrequest, horder⟩ := hrepeats e he hsame
    have hview := hs.oneView _ hseen _ hs.current hsame
    have hafter : revision u = revision e.after := by
      rw [happlied'.next]
      exact hbefore.symm
    rw [hs.oneView u hu _ hseen' hafter]
    have heffect := happlied'.effect
    rw [hrequest] at heffect
    exact Request.view_congr heffect happlied.effect horder hview

theorem Accounted.carryOut {r : Request} (hs : Accounted lib base s)
    (happlied : r.Applied lib o s.tables t') (hrepeats : s.Repeats o r) :
    Accounted lib base (s.carryOut o r t') := by
  refine hs.moved ((hs.stored _ hs.current).request happlied)
    (hs.view_of_applied happlied hrepeats) ?_ ?_ ?_ ?_
  · exact fun id a ha hpublished => happlied.effect.has ((hs.approvals id a ha).row hpublished).2
  · have hleast := (hs.reached _ hs.current).1
    have hnext := happlied.next
    exact ⟨by omega, Or.inr ⟨_, List.mem_cons_self .., hnext.symm⟩⟩
  · exact fun e he => List.mem_cons_of_mem _ he
  · intro e he
    rcases List.mem_cons.mp he with rfl | hmem
    · exact Or.inr ⟨hs.current, rfl, happlied⟩
    · exact Or.inl hmem

theorem Accounted.drop (hs : Accounted lib base s) (id : ℕ) :
    Accounted lib base (s.set id none) := by
  have hstill : ∀ {id' a}, (s.set id none).approvals id' = some a → s.approvals id' = some a := by
    intro id' a ha
    have ha' : Function.update s.approvals id none id' = some a := ha
    rw [Function.update_apply] at ha'
    split_ifs at ha'
    exact ha'
  constructor
  · exact hs.current
  · exact hs.stored
  · exact hs.oneView
  · exact hs.reached
  · exact hs.log
  · exact fun id' a ha => hs.read id' a (hstill ha)
  · exact fun id' a ha => hs.approvals id' a (hstill ha)
  · exact fun id₁ id₂ a a' ha ha' => hs.apart id₁ id₂ a a' (hstill ha) (hstill ha')

theorem Accounted.put {id : ℕ} {a : Approval} (hs : Accounted lib base s) (hread : a.read ∈ s.seen)
    (hopen : a.Open s.tables)
    (hapart : a.published = true → ∀ id' a', id' ≠ id → s.approvals id' = some a' →
      a'.published = true → a'.version ≠ a.version) :
    Accounted lib base (s.set id (some a)) := by
  have hcases : ∀ {id' a'}, (s.set id (some a)).approvals id' = some a' →
      id' = id ∧ a' = a ∨ id' ≠ id ∧ s.approvals id' = some a' := by
    intro id' a' ha'
    have hupdate : Function.update s.approvals id (some a) id' = some a' := ha'
    rw [Function.update_apply] at hupdate
    split_ifs at hupdate with hid
    · exact Or.inl ⟨hid, (Option.some.inj hupdate).symm⟩
    · exact Or.inr ⟨hid, hupdate⟩
  constructor
  · exact hs.current
  · exact hs.stored
  · exact hs.oneView
  · exact hs.reached
  · exact hs.log
  · intro id' a' ha'
    rcases hcases ha' with ⟨-, rfl⟩ | ⟨-, hold⟩
    · exact hread
    · exact hs.read id' a' hold
  · intro id' a' ha'
    rcases hcases ha' with ⟨-, rfl⟩ | ⟨-, hold⟩
    · exact hopen
    · exact hs.approvals id' a' hold
  · intro id₁ id₂ a₁ a₂ h₁ h₂ hpublished₁ hpublished₂ hversion
    rcases hcases h₁ with ⟨hid₁, rfl⟩ | ⟨hid₁, hold₁⟩
    · rcases hcases h₂ with ⟨hid₂, -⟩ | ⟨hid₂, hold₂⟩
      · rw [hid₁, hid₂]
      · exact absurd hversion.symm (hapart hpublished₁ id₂ a₂ hid₂ hold₂ hpublished₂)
    · rcases hcases h₂ with ⟨hid₂, rfl⟩ | ⟨hid₂, hold₂⟩
      · exact absurd hversion (hapart hpublished₂ id₁ a₁ hid₁ hold₁ hpublished₁)
      · exact hs.apart id₁ id₂ a₁ a₂ hold₁ hold₂ hpublished₁ hpublished₂ hversion

theorem Accounted.publish {id : ℕ} {a : Approval} (hs : Accounted lib base s)
    (ha : s.approvals id = some a) (hwaiting : a.published = false)
    (happlied : a.review.request.Applied lib o s.tables t')
    (hrepeats : s.Repeats o a.review.request) :
    Accounted lib base
      ((s.carryOut o a.review.request t').set id (some { a with published := true })) := by
  have hothers := (hs.approvals id a ha).waiting hwaiting
  obtain ⟨hne, hfree, hrows, htags⟩ := happlied.effect
  have hhas : t'.versions.has a.version = true := by
    rw [hrows]
    exact GoMap.has_store_self _ _ _
  apply (hs.carryOut happlied hrepeats).put
  · exact List.mem_cons_of_mem _ (hs.read id a ha)
  · constructor
    · intro hfalse
      cases hfalse
    · exact fun _ => ⟨hne, hhas⟩
    · intro w hw
      show a.others.versions w = liveRow t'.versions w
      rw [hothers, hrows, liveRow_store rfl]
      exact (if_neg hw).symm
    · intro tag
      show a.others.tags tag = t'.tags.load tag ∨ t'.tags.load tag = some a.version
      rw [hothers, publishTags_load htags]
      split_ifs
      · exact Or.inr rfl
      · exact Or.inl rfl
  -- the name was free, and the rows of the other approvals were there
  · intro _ id' a₁ hid h₁ hpublished heq
    obtain ⟨a', ha', rfl⟩ := Session.settle_approvals h₁
    have hthere := ((hs.approvals id' a' ha').row hpublished).2
    have hsame : a'.version = a.version := heq
    rw [hsame] at hthere
    exact absurd (hfree.symm.trans hthere) Bool.false_ne_true

theorem traits_restored {row : NPMPackage} (h : t.package = some row)
    (h' : ∃ pkg, t'.package = some (NPMPackage.restored pkg row)) :
    (traits t').description = (traits t).description ∧
      (traits t').publisher = (traits t).publisher ∧ (traits t').latest = (traits t).latest ∧
      revision t' = revision t := by
  obtain ⟨pkg, hpkg⟩ := h'
  refine ⟨?_, ?_, ?_, ?_⟩
  · simp only [traits, h, hpkg, Option.elim_some, NPMPackage.restored]
  · simp only [traits, h, hpkg, Option.elim_some, NPMPackage.restored]
  · simp only [traits, h, hpkg, Option.elim_some, NPMPackage.restored]
  · rw [revision_of_some h, revision_of_some hpkg]
    rfl

theorem Approval.Undisturbed.view {a : Approval} {row : NPMPackage} (h : a.Undisturbed lib)
    (hopen : a.Open t) (hback : RolledBack a.version row a.read.tags t t') :
    Npm.view t' = Npm.view a.read := by
  refine View.ext ?_ ?_
  · funext w
    show liveRow t'.versions w = liveRow a.read.versions w
    rw [hback.versions, liveRow_delete]
    split_ifs with hw
    · rw [hw]
      exact h.version.symm
    · exact (hopen.versions w hw).symm.trans (h.versions w hw)
  · funext tag
    show t'.tags.load tag = a.read.tags.load tag
    rw [hback.tags]
    cases hread : a.read.tags.load tag with
    | some version => rfl
    | none =>
      rw [Option.none_or]
      have hothers : a.others.tags tag = none ∨ a.others.tags tag = some a.version := by
        rw [← hread]
        exact h.tags tag
      -- nobody but the publication moved the tag, or it was pointed at the reviewed version
      have hnow : t.tags.load tag = none ∨ t.tags.load tag = some a.version := by
        rcases hopen.tags tag with hsame | hmoved
        · rwa [← hsame]
        · exact Or.inr hmoved
      rcases hnow with hnow | hnow <;> simp [hnow]

theorem Approval.Undisturbed.undone {a : Approval} {row : NPMPackage} (h : a.Undisturbed lib)
    (hread : Stored a.read) (hrow : a.read.package = some row) (hopen : a.Open t)
    (hback : RolledBack a.version row a.read.tags t t') : a.Undone t' := by
  have hview := h.view hopen hback
  have hversions : ∀ w, liveRow t'.versions w = liveRow a.read.versions w :=
    congrFun (congrArg View.versions hview)
  have htags : ∀ tag, t'.tags.load tag = a.read.tags.load tag :=
    congrFun (congrArg View.tags hview)
  obtain ⟨hdescription, hpublisher, hlatest, -⟩ := traits_restored hrow hback.row
  constructor
  · rw [hback.versions, GoMap.load_delete_self]
  · intro tag hload
    rw [htags] at hload
    obtain ⟨live, hlive⟩ := live_iff_liveRow.mp (hread.tags tag a.version hload)
    have hnone : liveRow a.read.versions a.version = none := h.version
    rw [hnone] at hlive
    cases hlive
  · intro w hw
    exact (hversions w).trans (h.versions w hw).symm
  · intro tag hother
    exact (htags tag).trans ((h.tags tag).resolve_right hother).symm
  · exact hdescription.trans h.description.symm
  · exact hpublisher.trans h.publisher.symm
  · intro hother
    exact hlatest.trans (h.latest.resolve_right hother).symm

theorem Stored.rolledBack {a : Approval} {row : NPMPackage} (h : Stored t)
    (hread : Stored a.read) (hback : RolledBack a.version row a.read.tags t t')
    (hview : view t' = view a.read) : Stored t' where
  row := by
    obtain ⟨pkg, hpkg⟩ := hback.row
    exact ⟨_, hpkg⟩
  versions version live hload := by
    rw [hback.versions, GoMap.load_delete] at hload
    split_ifs at hload
    exact h.versions version live hload
  tags tag version hload := by
    have htags : t'.tags.load = a.read.tags.load := congrArg View.tags hview
    have hversions : liveRow t'.versions = liveRow a.read.versions := congrArg View.versions hview
    rw [htags] at hload
    rw [live_iff_liveRow, hversions]
    exact live_iff_liveRow.mp (hread.tags tag version hload)
  named tag version hload := by
    have htags : t'.tags.load = a.read.tags.load := congrArg View.tags hview
    rw [htags] at hload
    exact hread.named tag version hload

theorem Accounted.rollback {id : ℕ} {a : Approval} {order : GoMap.RangeOrder Text Text}
    (hs : Accounted lib base s) (ha : s.approvals id = some a) (hpublished : a.published = true)
    (h : a.Undisturbed lib) : ∃ t', removeApprovedPublicationMetadata lib order s.tables a.version
      a.read.package a.read.tags = .ok t' ∧ a.Undone t' ∧
      Accounted lib base ((s.set id none).settle t') := by
  have hread := hs.stored _ (hs.read id a ha)
  have hnow := hs.stored _ hs.current
  have hopen := hs.approvals id a ha
  obtain ⟨row, hrow⟩ := hread.row
  obtain ⟨hne, hhas⟩ := hopen.row hpublished
  have hstored : StoredTags lib a.read.tags := by
    intro tag version hload
    obtain ⟨live, hlive, -⟩ := live_iff.mp (hread.tags tag version hload)
    exact ⟨h.names tag version hload, hread.named tag version hload,
      hread.versions version live hlive⟩
  obtain ⟨t', hok, hback⟩ := removeApproved_spec hnow.row hne hhas hstored
  have hview := h.view hopen hback
  obtain ⟨-, -, -, hrevision⟩ := traits_restored hrow hback.row
  rw [hrow]
  refine ⟨t', hok, h.undone hread hrow hopen hback, ?_⟩
  refine (hs.drop id).moved (hnow.rolledBack hread hback hview) ?_ ?_ ?_ (fun _ he => he)
    fun _ he => Or.inl he
  · intro u hu hsame
    rw [hview]
    exact hs.oneView u hu _ (hs.read id a ha) (hsame.trans hrevision)
  · intro id' a' ha' hpublished'
    have hupdate : Function.update s.approvals id none id' = some a' := ha'
    rw [Function.update_apply] at hupdate
    split_ifs at hupdate with hid
    have hapart : a'.version ≠ a.version :=
      fun heq => hid (hs.apart id' id a' a hupdate ha hpublished' hpublished heq)
    rw [hback.versions, GoMap.has, GoMap.load_delete_ne _ hapart]
    exact ((hs.approvals id' a' hupdate).row hpublished').2
  · rw [hrevision]
    exact hs.reached _ (hs.read id a ha)

theorem Accounted.next {step : Step} (hs : Accounted lib base s) (hsafe : step.Safe lib s) :
    Accounted lib base (s.next lib step) := by
  cases step with
  | call o r =>
    show Accounted lib base (match r.apply lib o s.tables with
      | .ok t => s.carryOut o r t
      | .error _ => s)
    split
    · rename_i t hok
      exact hs.carryOut (Request.applied hok) (hsafe t hok)
    · exact hs
  | read id review =>
    show Accounted lib base (match s.approvals id, s.tables.package with
      | none, some _ => s.set id (some ⟨review, s.tables, false, traits s.tables⟩)
      | _, _ => s)
    split
    · apply hs.put hs.current
      · exact ⟨fun _ => rfl, fun hfalse => Bool.noConfusion hfalse, fun _ _ => rfl,
          fun _ => Or.inl rfl⟩
      · intro hfalse
        cases hfalse
    · exact hs
  | publish id o =>
    unfold Session.next
    dsimp only
    split
    · exact hs
    · rename_i a ha
      split_ifs with hpublished
      · exact hs
      · rw [Bool.not_eq_true] at hpublished
        split
        · rename_i t hok
          exact hs.publish ha hpublished (Request.applied hok) (hsafe a t ha hpublished hok)
        · exact hs.drop id
  | decide id order decided =>
    unfold Session.next
    dsimp only
    split
    · exact hs
    · rename_i a ha
      split_ifs with hwaiting hdecided
      · exact hs
      · exact hs.drop id
      · rw [Bool.not_eq_false] at hwaiting
        rw [Bool.not_eq_true] at hdecided
        subst hdecided
        obtain ⟨t', hok, -, hback⟩ := hs.rollback ha hwaiting (hsafe a ha hwaiting)
        rw [hok]
        exact hback

theorem Accounted.right {step : Step} (hs : Accounted lib base s) (hsafe : step.Safe lib s) :
    step.Right lib s := by
  cases step with
  | call o r =>
    intro t hok hguarded hpos u hu hrevision
    have hmatch := (Request.applied hok).guard hguarded hpos
    exact hs.oneView u hu _ hs.current (hrevision.trans hmatch.symm)
  | read id review => exact trivial
  | publish id o => exact trivial
  | decide id order decided =>
    cases decided with
    | true => exact trivial
    | false =>
      intro a ha hpublished
      obtain ⟨t', hok, hundone, -⟩ := hs.rollback ha hpublished (hsafe a ha hpublished)
      unfold Session.next
      simp only [ha, hpublished, Bool.true_eq_false, Bool.false_eq_true, if_false]
      rw [hok]
      exact hundone

/-- Where rollbacks find the package as it was read, and a revision that comes back is used for
the same request again, states of one revision have one view, a request with a revision meets the
view of its client, and a rollback takes back the publication and nothing else. -/
theorem one_view_of_safe (ht : Stored t) {steps : List Step}
    (hsafe : Along (Session.next lib) (Step.Safe lib) (Session.start t) steps) :
    OneView (steps.foldl (Session.next lib) (Session.start t)).seen ∧
      Along (Session.next lib) (Step.Right lib) (Session.start t) steps := by
  have hstart : Accounted lib (revision t) (Session.start t) := accounted_start ht
  have hkeeps : ∀ s step, Accounted lib (revision t) s → step.Safe lib s →
      Accounted lib (revision t) (s.next lib step) := fun s step hs hstep => hs.next hstep
  constructor
  · exact (hsafe.invariant hkeeps hstart).oneView
  · exact hsafe.of_through (fun s step hs hstep => hs.right hstep)
      (hsafe.through (fun _ hs => hs) hkeeps hstart)

theorem Session.set_self (s : Session) (id : ℕ) (a : Option Approval) :
    (s.set id a).approvals id = a := Function.update_self ..

theorem approval_at_once {id : ℕ} {review : Review} {pkg : NPMPackage} {a : Approval}
    (hfree : s.approvals id = none) (hpkg : s.tables.package = some pkg)
    (ha : ((s.next lib (.read id review)).next lib (.publish id o)).approvals id = some a) :
    a.review = review ∧ a.read = s.tables ∧ a.others = traits s.tables := by
  have hread : s.next lib (.read id review) =
      s.set id (some ⟨review, s.tables, false, traits s.tables⟩) := by
    simp only [Session.next, hfree, hpkg]
  rw [hread] at ha
  simp only [Session.next, Session.set_self, Bool.false_eq_true, if_false] at ha
  split at ha
  · rw [Session.set_self, Option.some.injEq] at ha
    rw [← ha]
    exact ⟨rfl, rfl, rfl⟩
  · rw [Session.set_self] at ha
    cases ha

def secondVersion : Text := "2.0.0".toList

def secondReview : Review where
  username := "owner".toList
  description := []
  publication := { firstPublication with version := secondVersion, createdAt := 1 }
  tags := (∅ : GoMap Text Text).store latestTag secondVersion

theorem createdPackage_stored : Stored createdPackage where
  row := ⟨_, rfl⟩
  versions version row hload := by cases (GoMap.load_empty version).symm.trans hload
  tags := tagsLive_empty
  named tag version hload := by cases (GoMap.load_empty tag).symm.trans hload

def takenBack : List Step :=
  [.read 0 secondReview, .publish 0 unlocked, .decide 0 .entries false]

theorem takenBack_one_view :
    OneView (takenBack.foldl (Session.next plainLibrary) (Session.start createdPackage)).seen ∧
      Along (Session.next plainLibrary) (Step.Right plainLibrary) (Session.start createdPackage)
        takenBack := by
  apply one_view_of_safe createdPackage_stored
  refine ⟨trivial, fun a t _ _ _ e he => ?_, fun a ha _ => ?_, trivial⟩
  · cases he
  · obtain ⟨hreview, hread, hothers⟩ := approval_at_once rfl rfl ha
    constructor
    · rw [hread]
      rfl
    · intro w _
      rw [hread, hothers]
    · intro tag
      rw [hread, hothers]
      exact Or.inl rfl
    · rw [hread, hothers]
    · rw [hread, hothers]
    · rw [hread, hothers]
      exact Or.inl rfl
    · intro tag version hload
      rw [hread] at hload
      cases (GoMap.load_empty tag).symm.trans hload

/-- A client deletes the `latest` tag between a publication and its rollback, and another sets a
tag afterwards. -/
def deletedBetween : List Step :=
  [.call unlocked (.publish "owner".toList [] firstPublication (tagged latestTag)),
    .read 0 secondReview, .publish 0 unlocked, .call unlocked (.deleteTag latestTag),
    .decide 0 .entries false, .call unlocked (.setTag "beta".toList firstVersion)]

/-- The deletion is undone, and two views have one revision. -/
theorem deletedBetween_reverted :
    Stored createdPackage ∧
      ¬OneView (deletedBetween.foldl (Session.next plainLibrary)
        (Session.start createdPackage)).seen ∧
      ¬Along (Session.next plainLibrary) (Step.Right plainLibrary) (Session.start createdPackage)
        deletedBetween := by
  refine ⟨createdPackage_stored, ?_, ?_⟩
  · intro hone
    generalize hend : deletedBetween.foldl (Session.next plainLibrary)
      (Session.start createdPackage) = s at hone
    have hseen :
        (3, some secondVersion) ∈ s.seen.map (fun t => (revision t, t.tags.load latestTag)) ∧
        (3, some firstVersion) ∈ s.seen.map fun t => (revision t, t.tags.load latestTag) := by
      rw [← hend]
      decide +kernel
    obtain ⟨t, ht, htag⟩ := List.mem_map.mp hseen.1
    obtain ⟨u, hu, hutag⟩ := List.mem_map.mp hseen.2
    rw [Prod.mk.injEq] at htag hutag
    have hsame : t.tags.load = u.tags.load :=
      congrArg View.tags (hone t ht u hu (htag.1.trans hutag.1.symm))
    rw [hsame, hutag.2] at htag
    exact absurd htag.2 (by decide)
  · intro hright
    have hrollback : Step.Right plainLibrary ((deletedBetween.take 4).foldl
        (Session.next plainLibrary) (Session.start createdPackage)) (.decide 0 .entries false) :=
      hright.2.2.2.2.1
    generalize hbefore : (deletedBetween.take 4).foldl (Session.next plainLibrary)
      (Session.start createdPackage) = s at hrollback
    have hfound : (s.approvals 0).any (fun a => a.published &&
        decide (a.others.tags latestTag = none ∧ a.version = secondVersion)) = true := by
      rw [← hbefore]
      decide +kernel
    have hback : (s.next plainLibrary (.decide 0 .entries false)).tables.tags.load latestTag =
        some firstVersion := by
      rw [← hbefore]
      decide +kernel
    obtain ⟨a, ha, hfound⟩ := (Option.any_eq_true _ _).mp hfound
    rw [Bool.and_eq_true, decide_eq_true_eq] at hfound
    obtain ⟨hpublished, hothers, hversion⟩ := hfound
    have hkept := (hrollback a ha hpublished).changed latestTag (by rw [hothers]; simp)
    rw [hothers] at hkept
    exact absurd (hback.symm.trans hkept) (by simp)

end RenoP.Npm
