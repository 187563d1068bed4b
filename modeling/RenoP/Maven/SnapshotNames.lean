import RenoP.Lib.Nested
import RenoP.Lib.RegExp
import RenoP.Maven.VersionRemoval

/-!
# Names of snapshot builds

`parseUniqueSnapshotBaseName` of `internal/service/storage/snapshot.go` with its two expressions on
the bytes of a file name.
-/

namespace RenoP.Maven

open RegExp (one plus times seq opt)

def dash : UInt8 := 0x2D
def point : UInt8 := 0x2E
def newline : UInt8 := 0x0A

def isDigit (c : UInt8) : Bool := decide (0x30 ≤ c) && decide (c ≤ 0x39)

def isAlnum (c : UInt8) : Bool :=
  isDigit c || (decide (0x41 ≤ c) && decide (c ≤ 0x5A)) || (decide (0x61 ≤ c) && decide (c ≤ 0x7A))

structure UniqueSnapshotParts where
  namePrefix : Bytes
  uniqueVer : Bytes
  classifier : Bytes
  primaryExt : Bytes
  deriving DecidableEq

/-- `\d{8}\.\d{6}-\d+` -/
def timestampVersion : RegExp.Pattern UInt8 :=
  seq (times isDigit 8) (seq (one (· == point))
    (seq (times isDigit 6) (seq (one (· == dash)) (plus isDigit))))

/-- `\d+` -/
def buildVersion : RegExp.Pattern UInt8 := plus isDigit

/-- `(-[^.]+)?` -/
def classifierPart : RegExp.Pattern UInt8 := opt (seq (one (· == dash)) (plus (· != point)))

/-- `(\.[A-Za-z0-9]+)` -/
def extPart : RegExp.Pattern UInt8 := seq (one (· == point)) (plus isAlnum)

/-- The matches of `^(.+)-(version)(-[^.]+)?(\.[A-Za-z0-9]+)$`, the preferred one first -/
def candidates (version : RegExp.Pattern UInt8) (baseName : Bytes) : List UniqueSnapshotParts :=
  (plus (· != newline) baseName).flatMap fun pre =>
    (one (· == dash) pre.2).flatMap fun hyphen =>
    (version hyphen.2).flatMap fun ver =>
    (classifierPart ver.2).flatMap fun cls =>
    (extPart cls.2).flatMap fun ext =>
    if ext.2 = [] then [⟨pre.1, ver.1, cls.1, ext.1⟩] else []

def findParts (version : RegExp.Pattern UInt8) (baseName : Bytes) : Option UniqueSnapshotParts :=
  (candidates version baseName).head?

def parseUniqueSnapshotBaseName (baseName : Bytes) : Option UniqueSnapshotParts :=
  match findParts timestampVersion baseName with
  | some parts => some parts
  | none => findParts buildVersion baseName

def Digits (x : Bytes) : Prop := x ≠ [] ∧ ∀ c ∈ x, isDigit c = true

def Timestamp (x : Bytes) : Prop :=
  ∃ date time build, x = date ++ point :: (time ++ dash :: build) ∧ date.length = 8 ∧
    (∀ c ∈ date, isDigit c = true) ∧ time.length = 6 ∧ (∀ c ∈ time, isDigit c = true) ∧
    Digits build

def Rest (r : Bytes) : Prop :=
  ∃ cls ext, r = cls ++ point :: ext ∧ (cls = [] ∨ ∃ c, cls = dash :: c ∧ c ≠ [] ∧ point ∉ c) ∧
    ext ≠ [] ∧ ∀ c ∈ ext, isAlnum c = true

def Matches (L : Bytes → Prop) (name p u : Bytes) : Prop :=
  ∃ r, name = p ++ dash :: (u ++ r) ∧ p ≠ [] ∧ newline ∉ p ∧ L u ∧ Rest r

theorem takes_timestamp : RegExp.Takes timestampVersion Timestamp := by
  intro s m
  refine ((RegExp.takes_times _ 8).seq ((RegExp.takes_one _).seq ((RegExp.takes_times _ 6).seq
    ((RegExp.takes_one _).seq (RegExp.takes_plus _)))) s m).trans (and_congr_right fun _ => ?_)
  simp only [beq_iff_eq]
  constructor
  · rintro ⟨date, _, hx, hdate, _, _, rfl, ⟨_, rfl, rfl⟩, time, _, rfl, htime, _, build, rfl,
      ⟨_, rfl, rfl⟩, hbuild⟩
    exact ⟨date, time, build, by simpa using hx, hdate.1, hdate.2, htime.1, htime.2, hbuild⟩
  · rintro ⟨date, time, build, hx, hlen, hdate, hlen', htime, hbuild⟩
    exact ⟨date, _, hx, ⟨hlen, hdate⟩, [point], _, rfl, ⟨point, rfl, rfl⟩, time, _, rfl,
      ⟨hlen', htime⟩, [dash], build, rfl, ⟨dash, rfl, rfl⟩, hbuild⟩

theorem takes_classifier : RegExp.Takes classifierPart fun x =>
    x = [] ∨ ∃ c, x = dash :: c ∧ c ≠ [] ∧ point ∉ c := by
  intro s m
  refine (((RegExp.takes_one _).seq (RegExp.takes_plus _)).opt s m).trans
    (and_congr_right fun _ => ?_)
  simp only [beq_iff_eq, bne_iff_ne]
  constructor
  · rintro (⟨_, c, hx, ⟨_, rfl, rfl⟩, hne, hall⟩ | hnil)
    · exact .inr ⟨c, hx, hne, fun hmem => hall _ hmem rfl⟩
    · exact .inl hnil
  · rintro (hnil | ⟨c, hx, hne, hpoint⟩)
    · exact .inr hnil
    · exact .inl ⟨[dash], c, hx, ⟨dash, rfl, rfl⟩, hne, fun d hd he => hpoint (he ▸ hd)⟩

theorem takes_ext : RegExp.Takes extPart fun x =>
    ∃ e, x = point :: e ∧ e ≠ [] ∧ ∀ c ∈ e, isAlnum c = true := by
  intro s m
  refine ((RegExp.takes_one _).seq (RegExp.takes_plus _) s m).trans (and_congr_right fun _ => ?_)
  simp only [beq_iff_eq]
  constructor
  · rintro ⟨_, e, hx, ⟨_, rfl, rfl⟩, he⟩
    exact ⟨e, hx, he⟩
  · rintro ⟨e, hx, he⟩
    exact ⟨[point], e, hx, ⟨point, rfl, rfl⟩, he⟩

theorem mem_candidates {version : RegExp.Pattern UInt8} {L : Bytes → Prop}
    (hL : RegExp.Takes version L) (name : Bytes) (parts : UniqueSnapshotParts) :
    parts ∈ candidates version name ↔
      name = parts.namePrefix ++
        dash :: (parts.uniqueVer ++ (parts.classifier ++ parts.primaryExt)) ∧
      (parts.namePrefix ≠ [] ∧ newline ∉ parts.namePrefix) ∧ L parts.uniqueVer ∧
      (parts.classifier = [] ∨ ∃ c, parts.classifier = dash :: c ∧ c ≠ [] ∧ point ∉ c) ∧
      ∃ e, parts.primaryExt = point :: e ∧ e ≠ [] ∧ ∀ c ∈ e, isAlnum c = true := by
  unfold candidates
  simp only [List.mem_flatMap]
  constructor
  · rintro ⟨pre, hpre, hyphen, hhyphen, ver, hver, cls, hcls, ext, hext, hparts⟩
    obtain ⟨hs, hne, hall⟩ := (RegExp.takes_plus _ _ _).mp hpre
    obtain ⟨hs1, _, hdash, hd⟩ := (RegExp.takes_one _ _ _).mp hhyphen
    obtain ⟨hs2, hver⟩ := (hL _ _).mp hver
    obtain ⟨hs3, hcls⟩ := (takes_classifier _ _).mp hcls
    obtain ⟨hs4, hext⟩ := (takes_ext _ _).mp hext
    split_ifs at hparts with hend
    · rw [List.mem_singleton.mp hparts]
      rw [beq_iff_eq.mp hd] at hdash
      refine ⟨?_, ⟨hne, fun hmem => absurd rfl (bne_iff_ne.mp (hall _ hmem))⟩, hver, hcls, hext⟩
      rw [hs, hs1, hdash, hs2, hs3, hs4, hend, List.append_nil]
      rfl
    · cases hparts
  · rintro ⟨hs, ⟨hne, hline⟩, hver, hcls, hext⟩
    refine ⟨(parts.namePrefix, _), (RegExp.takes_plus _ _ _).mpr ⟨hs, hne, ?_⟩,
      ([dash], _), (RegExp.takes_one _ _ _).mpr ⟨rfl, dash, rfl, rfl⟩,
      (parts.uniqueVer, _), (hL _ _).mpr ⟨rfl, hver⟩,
      (parts.classifier, _), (takes_classifier _ _).mpr ⟨rfl, hcls⟩,
      (parts.primaryExt, []), (takes_ext _ _).mpr ⟨(List.append_nil _).symm, hext⟩, ?_⟩
    · intro c hc
      exact bne_iff_ne.mpr fun he => hline (he ▸ hc)
    · simp

theorem findParts_some {version : RegExp.Pattern UInt8} {L : Bytes → Prop}
    (hL : RegExp.Takes version L) {name : Bytes} {parts : UniqueSnapshotParts}
    (h : findParts version name = some parts) :
    Matches L name parts.namePrefix parts.uniqueVer := by
  have hmem : parts ∈ candidates version name := List.mem_of_mem_head? h
  obtain ⟨hname, ⟨hne, hline⟩, hver, hcls, e, he, hene, hall⟩ := (mem_candidates hL _ _).mp hmem
  exact ⟨_, hname, hne, hline, hver, parts.classifier, e, by rw [he], hcls, hene, hall⟩

theorem findParts_none {version : RegExp.Pattern UInt8} {L : Bytes → Prop}
    (hL : RegExp.Takes version L) {name : Bytes} (h : findParts version name = none)
    (p u : Bytes) : ¬Matches L name p u := by
  rintro ⟨r, hname, hne, hline, hver, cls, e, hr, hcls, hene, hall⟩
  have hnil : candidates version name = [] := List.head?_eq_none_iff.mp h
  have hmem : (⟨p, u, cls, point :: e⟩ : UniqueSnapshotParts) ∈ candidates version name :=
    (mem_candidates hL _ _).mpr ⟨by rw [hname, hr], ⟨hne, hline⟩, hver, hcls, e, rfl, hene, hall⟩
  rw [hnil] at hmem
  cases hmem

/-- A name is read with this prefix and version; a build number only where no timestamp is. -/
def Reading (name p u : Bytes) : Prop :=
  Matches Timestamp name p u ∨
    (Matches Digits name p u ∧ ∀ p' u', ¬Matches Timestamp name p' u')

theorem parse_reading {name : Bytes} {parts : UniqueSnapshotParts}
    (h : parseUniqueSnapshotBaseName name = some parts) :
    Reading name parts.namePrefix parts.uniqueVer := by
  unfold parseUniqueSnapshotBaseName at h
  cases ht : findParts timestampVersion name with
  | some found =>
    rw [ht] at h
    cases h
    exact .inl (findParts_some takes_timestamp ht)
  | none =>
    rw [ht] at h
    exact .inr ⟨findParts_some (RegExp.takes_plus _) h, findParts_none takes_timestamp ht⟩

def run (s : Bytes) : Bytes := s.takeWhile isDigit

theorem run_append {x y : Bytes} (h : ∃ c ∈ x, isDigit c = false) : run (x ++ y) = run x := by
  induction x with
  | nil =>
    obtain ⟨c, hc, -⟩ := h
    cases hc
  | cons d x ih =>
    unfold run at *
    rw [List.cons_append, List.takeWhile_cons, List.takeWhile_cons]
    split_ifs with hd
    · obtain ⟨c, hc, hnot⟩ := h
      rcases List.mem_cons.mp hc with rfl | hc
      · rw [hd] at hnot
        cases hnot
      · rw [ih ⟨c, hc, hnot⟩]
    · rfl

theorem run_digits {u r : Bytes} (hu : ∀ c ∈ u, isDigit c = true)
    (hr : ∀ c, r.head? = some c → isDigit c = false) : run (u ++ r) = u := by
  unfold run
  rw [List.takeWhile_append_of_pos hu]
  cases r with
  | nil => simp
  | cons c r => simp [hr c rfl]

theorem Rest.head {r : Bytes} (h : Rest r) : ∀ c, r.head? = some c → isDigit c = false := by
  obtain ⟨cls, ext, rfl, rfl | ⟨c, rfl, -, -⟩, -, -⟩ := h
  · intro c hc
    cases hc
    rfl
  · intro d hd
    cases hd
    rfl

theorem Rest.point {r z : Bytes} (h : Rest r) (hr : r = point :: z) : dash ∉ r := by
  have hall : isAlnum dash = false := by decide
  obtain ⟨cls, ext, rfl, rfl | ⟨c, rfl, -, -⟩, -, hext⟩ := h
  · intro hmem
    rcases List.mem_cons.mp hmem with hd | hd
    · exact absurd hd (by decide)
    · rw [hext _ hd] at hall
      cases hall
  · exact absurd (List.cons.inj hr).1 (by decide)

theorem Timestamp.split {u : Bytes} (h : Timestamp u) : ∃ start build, u = start ++ dash :: build ∧
    dash ∉ start ∧ point ∈ start ∧ Digits build ∧
    ∃ date time, start = date ++ point :: time ∧ Digits date := by
  have hdash : isDigit dash = false := by decide
  obtain ⟨date, time, build, rfl, hlength, hdate, -, htime, hbuild⟩ := h
  refine ⟨date ++ point :: time, build, by simp, ?_, by simp, hbuild, date, time, rfl, ?_, hdate⟩
  · intro hmem
    rcases List.mem_append.mp hmem with hm | hm
    · rw [hdate _ hm] at hdash
      cases hdash
    · rcases List.mem_cons.mp hm with hm | hm
      · exact absurd hm (by decide)
      · rw [htime _ hm] at hdash
        cases hdash
  · rintro rfl
    cases hlength

def SameRun (s t : Bytes) : Prop := run s = [] ∨ run t = [] ∨ run s = run t

/-- The second text starts as the first one does up to a dash behind a dot, and goes on with the
same digits. -/
def Follows (s t : Bytes) : Prop :=
  ∀ h z, s = h ++ dash :: z → dash ∉ h → point ∈ h → ∃ z', t = h ++ dash :: z' ∧ SameRun z z'

def Alike (s t : Bytes) : Prop :=
  run s = [] ∨ run t = [] ∨ (run s = run t ∧ Follows s t ∧ Follows t s)

theorem run_timestamp {date time z : Bytes} (h : Digits date) :
    run (date ++ point :: time ++ z) = date := by
  rw [List.append_assoc]
  refine run_digits h.2 ?_
  intro c hc
  cases hc
  rfl

theorem not_timestamp_and_digits {u u' r r' : Bytes} (hu : Timestamp u) (hu' : Digits u')
    (hr' : Rest r') (h : Follows (u ++ r) (u' ++ r')) : False := by
  obtain ⟨start, build, rfl, hdash, hpoint, -, date, time, rfl, hdate⟩ := hu.split
  obtain ⟨z, hz, -⟩ := h _ (build ++ r) (by simp) hdash hpoint
  have hrun := congrArg run hz
  rw [run_digits hu'.2 hr'.head, run_timestamp hdate] at hrun
  rw [hrun] at hz
  have hrest : r' = point :: (time ++ dash :: z) := by simpa using hz
  exact hr'.point hrest (by rw [hrest]; simp)

theorem versions_agree {u u' r r' : Bytes} (hu : Timestamp u ∨ Digits u)
    (hu' : Timestamp u' ∨ Digits u') (hr : Rest r) (hr' : Rest r')
    (h : Alike (u ++ r) (u' ++ r')) : u = u' := by
  have hrun : ∀ {u r : Bytes}, Timestamp u ∨ Digits u → Rest r → run (u ++ r) ≠ [] := by
    intro u r hu hr
    rcases hu with hu | hu
    · obtain ⟨start, build, rfl, -, -, -, date, time, rfl, hdate⟩ := hu.split
      rw [List.append_assoc, run_timestamp hdate]
      exact hdate.1
    · rw [run_digits hu.2 hr.head]
      exact hu.1
  rcases h with h | h | ⟨hsame, hfollows, hfollows'⟩
  · exact absurd h (hrun hu hr)
  · exact absurd h (hrun hu' hr')
  rcases hu with hu | hu <;> rcases hu' with hu' | hu'
  · obtain ⟨start, build, rfl, hdash, hpoint, hbuild, -⟩ := hu.split
    obtain ⟨start', build', rfl, hdash', -, hbuild', -⟩ := hu'.split
    obtain ⟨z, hz, hagree⟩ := hfollows start (build ++ r) (by simp) hdash hpoint
    rw [List.append_assoc, List.cons_append] at hz
    obtain ⟨rfl, rfl⟩ := Nested.first_inj hdash' hdash hz
    unfold SameRun at hagree
    rw [run_digits hbuild.2 hr.head, run_digits hbuild'.2 hr'.head] at hagree
    rcases hagree with hnil | hnil | hbuilds
    · exact absurd hnil hbuild.1
    · exact absurd hnil hbuild'.1
    · rw [hbuilds]
  · exact (not_timestamp_and_digits hu hu' hr' hfollows).elim
  · exact (not_timestamp_and_digits hu' hu hr hfollows').elim
  · rwa [run_digits hu.2 hr.head, run_digits hu'.2 hr'.head] at hsame

/-- The literal `SNAPSHOT`, a timestamp with a build, or a build number. -/
inductive Qualifier : Bytes → Prop
  | snapshot : Qualifier snapshotText
  | timestamp {q} (h : Timestamp q) : Qualifier q
  | build {q} (h : Digits q) : Qualifier q

def Tail (t : Bytes) : Prop := t = [] ∨ (∃ c, t = dash :: c) ∨ ∃ e, t = point :: e ∧ dash ∉ e

theorem Tail.head {t : Bytes} (h : Tail t) : ∀ c, t.head? = some c → isDigit c = false := by
  rcases h with rfl | ⟨c, rfl⟩ | ⟨e, rfl, -⟩
  · intro c hc
    cases hc
  · intro d hd
    cases hd
    rfl
  · intro d hd
    cases hd
    rfl

theorem Timestamp.has_point {q : Bytes} (h : Timestamp q) : ∃ c ∈ q, isDigit c = false := by
  obtain ⟨date, time, build, rfl, -⟩ := h
  exact ⟨point, by simp, rfl⟩

theorem run_qualifier {q t : Bytes} (hq : Qualifier q) (ht : Tail t) : run (q ++ t) = run q := by
  cases hq with
  | snapshot => rfl
  | timestamp h => exact run_append h.has_point
  | build h =>
    have hself := run_digits (r := []) h.2 (fun c hc => by cases hc)
    rw [List.append_nil] at hself
    rw [run_digits h.2 ht.head, hself]

def Closed (x : Bytes) : Prop := x = [] ∨ ∃ y, x = y ++ [dash]

theorem Closed.tail {x y : Bytes} (h : Closed (x ++ dash :: y)) : Closed y := by
  rcases List.eq_nil_or_concat y with rfl | ⟨z, c, rfl⟩
  · exact .inl rfl
  · rcases h with h | ⟨w, h⟩
    · simp at h
    · have hconcat : (x ++ dash :: z) ++ [c] = w ++ [dash] := by simpa using h
      have hlast := (List.append_inj' hconcat rfl).2
      rw [List.concat_eq_append, hlast]
      exact .inr ⟨z, rfl⟩

theorem first_dash {x : Bytes} (h : dash ∈ x) : ∃ y z, x = y ++ dash :: z ∧ dash ∉ y := by
  obtain ⟨y, z, hx, hy⟩ := List.eq_append_cons_of_mem h
  exact ⟨y, z, hx, hy⟩

theorem SameRun.symm {s t : Bytes} (h : SameRun s t) : SameRun t s := by
  rcases h with h | h | h
  · exact .inr (.inl h)
  · exact .inl h
  · exact .inr (.inr h.symm)

theorem follows_dash {y s t : Bytes} (h : ∀ z, Closed z → SameRun (z ++ s) (z ++ t)) :
    Follows (y ++ [dash] ++ s) (y ++ [dash] ++ t) := by
  intro start z hz hdash _
  obtain ⟨first, rest, hsplit, hfirst⟩ := first_dash (x := y ++ [dash]) (by simp)
  have hclosed : Closed rest := Closed.tail (x := first) (.inr ⟨y, hsplit.symm⟩)
  rw [hsplit, List.append_assoc, List.cons_append] at hz
  obtain ⟨rfl, rfl⟩ := Nested.first_inj hfirst hdash hz
  exact ⟨rest ++ t, by rw [hsplit, List.append_assoc, List.cons_append], h rest hclosed⟩

theorem not_mem_of_digits {x : Bytes} {c : UInt8} (h : ∀ d ∈ x, isDigit d = true)
    (hc : isDigit c = false) : c ∉ x := by
  intro hmem
  rw [h c hmem] at hc
  cases hc

theorem follows_tail {q t t' : Bytes} (hq : Qualifier q) (ht : Tail t) (ht' : Tail t') :
    Follows (q ++ t) (q ++ t') := by
  intro start z hz hdash hpoint
  -- without a dash of its own the qualifier would have to end at the tail's dash
  have hplain : dash ∉ q → point ∉ q → False := by
    intro hq hq'
    rcases ht with rfl | ⟨c, rfl⟩ | ⟨e, rfl, he⟩
    · rw [List.append_nil] at hz
      exact hq (hz ▸ List.mem_append_right _ (List.mem_cons_self ..))
    · exact hq' ((Nested.first_inj hq hdash hz).1 ▸ hpoint)
    · have hmem : dash ∈ q ++ point :: e := by
        rw [hz]
        simp
      rcases List.mem_append.mp hmem with hm | hm
      · exact hq hm
      · rcases List.mem_cons.mp hm with hm | hm
        · exact absurd hm (by decide)
        · exact he hm
  cases hq with
  | snapshot => exact (hplain (by decide) (by decide)).elim
  | build h =>
    exact (hplain (not_mem_of_digits h.2 rfl) (not_mem_of_digits h.2 rfl)).elim
  | timestamp h =>
    obtain ⟨first, build, rfl, hfirst, -, hbuild, -⟩ := h.split
    rw [List.append_assoc, List.cons_append] at hz
    obtain ⟨rfl, rfl⟩ := Nested.first_inj hfirst hdash hz
    refine ⟨build ++ t', by rw [List.append_assoc, List.cons_append], .inr (.inr ?_)⟩
    rw [run_digits hbuild.2 ht.head, run_digits hbuild.2 ht'.head]

section

variable {q q' t t' : Bytes} (hq : Qualifier q) (hsame : q' = q ∨ q' = snapshotText) (ht : Tail t)
  (ht' : Tail t')

include hq hsame ht ht'

theorem sameRun_tails {x : Bytes} (hx : Closed x) :
    SameRun (x ++ (q ++ t)) (x ++ (q' ++ t')) := by
  unfold SameRun
  rcases hx with rfl | ⟨y, rfl⟩
  · rcases hsame with rfl | rfl
    · rw [List.nil_append, List.nil_append, run_qualifier hq ht, run_qualifier hq ht']
      exact .inr (.inr rfl)
    · exact .inr (.inl rfl)
  · have hdash : ∃ c ∈ y ++ [dash], isDigit c = false := ⟨dash, by simp, rfl⟩
    rw [run_append hdash, run_append hdash]
    exact .inr (.inr rfl)

theorem alike_tails {x : Bytes} (hx : Closed x) :
    Alike (x ++ (q ++ t)) (x ++ (q' ++ t')) := by
  have hruns := fun z (hz : Closed z) => sameRun_tails hq hsame ht ht' hz
  rcases hx with rfl | ⟨y, rfl⟩
  · rcases hsame with rfl | rfl
    · rw [List.nil_append, List.nil_append]
      refine .inr (.inr ⟨?_, follows_tail hq ht ht', follows_tail hq ht' ht⟩)
      rw [run_qualifier hq ht, run_qualifier hq ht']
    · exact .inr (.inl rfl)
  · have hdash : ∃ c ∈ y ++ [dash], isDigit c = false := ⟨dash, by simp, rfl⟩
    refine .inr (.inr ⟨?_, follows_dash hruns, follows_dash fun z hz => (hruns z hz).symm⟩)
    rw [run_append hdash, run_append hdash]

end

theorem Reading.split {name p u : Bytes} (h : Reading name p u) :
    ∃ r, name = p ++ dash :: (u ++ r) ∧ newline ∉ p ∧ Rest r ∧ (Timestamp u ∨ Digits u) := by
  rcases h with ⟨r, hname, -, hline, hu, hr⟩ | ⟨⟨r, hname, -, hline, hu, hr⟩, -⟩
  · exact ⟨r, hname, hline, hr, .inl hu⟩
  · exact ⟨r, hname, hline, hr, .inr hu⟩

theorem dash_in_qualifier {q p c : Bytes} (hq : Qualifier q) (h : q = p ++ dash :: c) :
    Timestamp q ∧ Digits c := by
  have hmem : dash ∈ q := by
    rw [h]
    simp
  cases hq with
  | snapshot => exact absurd hmem (by decide)
  | build hd => exact absurd hmem (not_mem_of_digits hd.2 rfl)
  | timestamp ht =>
    refine ⟨ht, ?_⟩
    obtain ⟨start, build, rfl, hstart, -, hbuild, -⟩ := ht.split
    by_cases hp : dash ∈ p
    · obtain ⟨y, z, rfl, hy⟩ := first_dash hp
      rw [List.append_assoc, List.cons_append] at h
      have hz := (Nested.first_inj hstart hy h).2
      exact absurd (by rw [hz]; simp) (not_mem_of_digits hbuild.2 (c := dash) rfl)
    · rw [← (Nested.first_inj hstart hp h).2]
      exact hbuild

theorem not_in_qualifier {d q t p c u : Bytes} (hq : Qualifier q) (ht : Tail t) (hd : d ≠ [])
    (h : Reading (d ++ dash :: (q ++ t)) (d ++ dash :: p) u) (hcut : q = p ++ dash :: c) :
    False := by
  obtain ⟨hstamp, hbuild⟩ := dash_in_qualifier hq hcut
  obtain ⟨r, hname, hline, hr, -⟩ := h.split
  have hrest : c ++ t = u ++ r := by
    rw [hcut] at hname
    simpa using hname
  have hrun := run_digits hbuild.2 ht.head
  rcases h with ⟨-, -, -, -, hu, -⟩ | ⟨⟨-, -, -, -, hu, -⟩, hnone⟩
  · -- the build number would be the date, and the tail the time with one more number
    obtain ⟨start, build, rfl, -, -, -, date, time, rfl, hdate⟩ := hu.split
    rw [hrest, List.append_assoc, run_timestamp hdate] at hrun
    have htail : t = point :: (time ++ dash :: (build ++ r)) := by simpa [hrun] using hrest
    rcases ht with rfl | ⟨c, rfl⟩ | ⟨e, rfl, he⟩
    · cases htail
    · exact absurd (List.cons.inj htail).1 (by decide)
    · exact he ((List.cons.inj htail).2 ▸ by simp)
  · rw [hrest, run_digits hu.2 hr.head] at hrun
    rw [hrun] at hrest
    rw [List.append_cancel_left hrest] at hnone
    refine hnone d q ⟨r, rfl, hd, fun hmem => hline (List.mem_append_left _ hmem), hstamp, hr⟩

theorem snapshot_of_start {q x y : Bytes} (hq : Qualifier q) (h : snapshotText ++ x = q ++ y) :
    q = snapshotText := by
  have hdigit : ∀ c ∈ q.head?, isDigit c = true → False := by
    intro c hc hdigit
    obtain ⟨z, rfl⟩ : ∃ z, q = c :: z := List.head?_eq_some_iff.mp hc
    rw [← (List.cons.inj h).1] at hdigit
    cases hdigit
  cases hq with
  | snapshot => rfl
  | timestamp ht =>
    obtain ⟨start, build, rfl, -, -, -, date, time, rfl, hdate⟩ := ht.split
    obtain ⟨c, z, rfl⟩ := List.exists_cons_of_ne_nil hdate.1
    exact (hdigit c rfl (hdate.2 c (List.mem_cons_self ..))).elim
  | build hd =>
    obtain ⟨c, z, rfl⟩ := List.exists_cons_of_ne_nil hd.1
    exact (hdigit c rfl (hd.2 c (List.mem_cons_self ..))).elim

section

variable {d q t p u : Bytes} (hd : d ≠ []) (hq : Qualifier q) (ht : Tail t)

include hd hq ht

theorem reading_place (h : Reading (d ++ dash :: (q ++ t)) p u) :
    p = d ∨ (∃ x, d = p ++ dash :: x) ∨ ∃ before, p = d ++ dash :: (q ++ before) := by
  obtain ⟨r, hname, -⟩ := h.split
  rcases List.append_eq_append_iff.mp hname with ⟨as, rfl, has⟩ | ⟨bs, rfl, hbs⟩
  · cases as with
    | nil => exact .inl (List.append_nil d)
    | cons c as =>
      obtain ⟨rfl, hcut⟩ := List.cons.inj has
      right
      right
      rcases List.append_eq_append_iff.mp hcut with ⟨before, rfl, -⟩ | ⟨bs, hbs, hrest⟩
      · exact ⟨before, rfl⟩
      · cases bs with
        | nil =>
          rw [List.append_nil] at hbs
          exact ⟨[], by rw [hbs, List.append_nil]⟩
        | cons c bs =>
          obtain ⟨rfl, -⟩ := List.cons.inj hrest
          exact (not_in_qualifier hq ht hd h hbs).elim
  · cases bs with
    | nil => exact .inl (List.append_nil p).symm
    | cons c bs =>
      obtain ⟨rfl, -⟩ := List.cons.inj hbs
      exact .inr (.inl ⟨bs, rfl⟩)

theorem reading_classifier {q' t' u' : Bytes} (hsame : q' = q ∨ q' = snapshotText) (ht' : Tail t')
    (h : Reading (d ++ dash :: (q ++ t)) p u) (h' : Reading (d ++ dash :: (q' ++ t')) p u')
    (hne : u ≠ u') : q' = q ∧ ∃ before, p = d ++ dash :: (q ++ before) := by
  obtain ⟨r, hname, -, hr, hu⟩ := h.split
  obtain ⟨r', hname', -, hr', hu'⟩ := h'.split
  -- a prefix that ends before the qualifier leaves texts with the same version
  have hbefore : ∀ x, Closed x → u ++ r = x ++ (q ++ t) → u' ++ r' = x ++ (q' ++ t') → False := by
    intro x hx hrest hrest'
    refine hne (versions_agree hu hu' hr hr' ?_)
    rw [hrest, hrest']
    exact alike_tails hq hsame ht ht' hx
  rcases reading_place hd hq ht h with rfl | ⟨x, rfl⟩ | ⟨before, rfl⟩
  · exact (hbefore [] (.inl rfl) (by simpa using hname.symm) (by simpa using hname'.symm)).elim
  · exact (hbefore (x ++ [dash]) (.inr ⟨x, rfl⟩) (by simpa using hname.symm)
      (by simpa using hname'.symm)).elim
  · refine ⟨?_, before, rfl⟩
    rcases hsame with rfl | rfl
    · rfl
    · refine (snapshot_of_start hq (x := t') (y := before ++ dash :: (u' ++ r')) ?_).symm
      simpa using hname'

end

end RenoP.Maven
