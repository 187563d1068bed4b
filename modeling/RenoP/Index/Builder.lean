import RenoP.Index.Purge
import Mathlib.Algebra.Order.Group.Nat

/-!
# Walks over the index (models.go:720-745)

A walk from `root` visits `root` and what the lists name below it.
-/

namespace RenoP.Index.FileIndex
open SlashPath

def collect (visited : List Path) (p : Path) (_info : FileInfo) (_isDir : Bool) :
    List Path × Bool :=
  (visited ++ [p], true)

/-- A walk from `root` that ends has visited `visited`, in this order. -/
def Visits (idx : FileIndex) (root : Path) (visited : List Path) : Prop :=
  ∃ fuel, idx.walk fuel root collect [] = some (visited, true)

theorem child_length (d c : Path) : d.length < (d ++ '/' :: c).length := by
  simp

theorem join_listed {idx : FileIndex} (h : Lists idx) {p c : Path} (hc : c ∈ idx.kids p) :
    join p c = p ++ '/' :: c := by
  obtain ⟨hp, hs⟩ := h.plain p c hc
  have hclean := h.cleanPath p c hc
  have hne := (hclean.parent hs hp.2.2).2.1
  unfold join
  rw [if_neg fun hn => hp.2.2 hn.1, if_neg hp.2.2, if_neg hne]
  exact hclean

theorem traverse_listed {idx : FileIndex} (h : Lists idx) (fuel : ℕ) : ∀ {current : Path}
    {s s' : List Path} {go : Bool}, Clean current →
    idx.traverse collect fuel current s = some (s', go) →
    ∃ v, s' = s ++ v ∧ ∀ q ∈ v, q = current ∨ ∃ p c, q = p ++ '/' :: c ∧ c ∈ idx.kids p := by
  induction fuel with
  | zero => exact fun _ hn => by cases hn
  | succ fuel ih =>
    intro current s s' go hclean ht
    have hloop : ∀ (l s s' : List Path) (go : Bool), (∀ c ∈ l, c ∈ idx.kids current) →
        traverseChildren (idx.traverse collect fuel) current l s = some (s', go) →
        ∃ v, s' = s ++ v ∧ ∀ q ∈ v, ∃ p c, q = p ++ '/' :: c ∧ c ∈ idx.kids p := by
      intro l
      induction l with
      | nil =>
        rintro s s' go - hl
        obtain ⟨rfl, -⟩ := Prod.mk.inj (Option.some.inj hl)
        exact ⟨[], by simp, fun q hq => absurd hq List.not_mem_nil⟩
      | cons c l ihl =>
        intro s s' go hlisted hl
        have hcl := hlisted c (List.mem_cons_self ..)
        have hchild : ∀ {s₁ : List Path} {go₁ : Bool},
            idx.traverse collect fuel (current ++ '/' :: c) s = some (s₁, go₁) →
            ∃ v, s₁ = s ++ v ∧ ∀ q ∈ v, ∃ p c, q = p ++ '/' :: c ∧ c ∈ idx.kids p := by
          intro s₁ go₁ h₁
          obtain ⟨v, hv, hq⟩ := ih (h.cleanPath current c hcl) h₁
          refine ⟨v, hv, fun q hqv => ?_⟩
          rcases hq q hqv with rfl | hq
          · exact ⟨current, c, rfl, hcl⟩
          · exact hq
        unfold traverseChildren at hl
        rw [join_listed h hcl] at hl
        cases h₁ : idx.traverse collect fuel (current ++ '/' :: c) s with
        | none =>
          rw [h₁] at hl
          cases hl
        | some r =>
          obtain ⟨s₁, go₁⟩ := r
          rw [h₁] at hl
          obtain ⟨v₁, rfl, hv₁⟩ := hchild h₁
          cases go₁ with
          | false =>
            obtain ⟨rfl, -⟩ := Prod.mk.inj (Option.some.inj hl)
            exact ⟨v₁, rfl, hv₁⟩
          | true =>
            obtain ⟨v₂, rfl, hv₂⟩ := ihl _ s' go
              (fun e he => hlisted e (List.mem_cons_of_mem _ he)) hl
            refine ⟨v₁ ++ v₂, List.append_assoc .., fun q hq => ?_⟩
            exact (List.mem_append.mp hq).elim (hv₁ q) (hv₂ q)
    unfold traverse at ht
    cases hfile : idx.getFileInfo current with
    | some info =>
      rw [hfile] at ht
      obtain ⟨rfl, -⟩ := Prod.mk.inj (Option.some.inj ht)
      exact ⟨[current], rfl, fun q hq => Or.inl (List.mem_singleton.mp hq)⟩
    | none =>
      rw [hfile] at ht
      dsimp only at ht
      by_cases hd : idx.hasDir current = true
      · rw [if_pos hd, getChildren_clean idx hclean] at ht
        obtain ⟨v, rfl, hv⟩ := hloop _ _ s' go (fun c hc => hc) ht
        refine ⟨current :: v, by simp [collect], fun q hq => ?_⟩
        exact (List.mem_cons.mp hq).imp id (hv q)
      · rw [if_neg hd] at ht
        obtain ⟨rfl, -⟩ := Prod.mk.inj (Option.some.inj ht)
        exact ⟨[], by simp, fun q hq => absurd hq List.not_mem_nil⟩

theorem Visits.listed {idx : FileIndex} (h : Lists idx) {root : Path} {visited : List Path}
    (hclean : Clean root) (hv : Visits idx root visited) :
    ∀ q ∈ visited, q = root ∨ ∃ p c, q = p ++ '/' :: c ∧ c ∈ idx.kids p := by
  obtain ⟨fuel, ht⟩ := hv
  unfold walk at ht
  rw [hclean] at ht
  obtain ⟨v, rfl, hq⟩ := traverse_listed h fuel hclean ht
  exact hq

/-- Every entry is `base` or stands, listed, in an indexed directory. -/
structure Rooted (idx : FileIndex) (base : Path) : Prop extends Lists idx where
  baseDir : idx.dirs.has base = true
  cleanBase : Clean base
  disjoint : ∀ q, idx.dirs.has q = true → idx.files.load q = none
  unblocked : ∀ q, idx.isBlocked q = true → idx.files.load q = none
  parent : ∀ q, idx.Indexed q → q = base ∨ ∃ p c, q = p ++ '/' :: c ∧ '/' ∉ c ∧
    idx.dirs.has p = true
  listed : ∀ p c, '/' ∉ c → p ++ '/' :: c ≠ base → idx.Indexed (p ++ '/' :: c) → c ∈ idx.kids p

def Within (d q : Path) : Prop := q = d ∨ Under d q

theorem within_iff {d c q : Path} : Within (d ++ '/' :: c) q ↔
    ∃ s, (s = [] ∨ s.head? = some '/') ∧ q = d ++ '/' :: (c ++ s) := by
  unfold Within
  rw [under_iff]
  constructor
  · rintro (rfl | ⟨s, rfl⟩)
    · exact ⟨[], Or.inl rfl, by simp⟩
    · exact ⟨'/' :: s, Or.inr rfl, by simp⟩
  · rintro ⟨s, rfl | hs, rfl⟩
    · exact Or.inl (by simp)
    · cases s with
      | nil => cases hs
      | cons x s =>
        obtain rfl := Option.some.inj hs
        exact Or.inr ⟨s, by simp⟩

theorem within_child_inj {d c c' q : Path} (hc : '/' ∉ c) (hc' : '/' ∉ c')
    (h : Within (d ++ '/' :: c) q) (h' : Within (d ++ '/' :: c') q) : c = c' := by
  have htake : ∀ {c s : Path}, '/' ∉ c → (s = [] ∨ s.head? = some '/') →
      (c ++ s).takeWhile (· ≠ '/') = c := by
    intro c s hc hs
    rw [List.takeWhile_append_of_pos fun x hx => by
      simp only [ne_eq, decide_not, Bool.not_eq_true', decide_eq_false_iff_not]
      rintro rfl
      exact hc hx]
    rcases hs with rfl | hs
    · simp
    · cases s with
      | nil => cases hs
      | cons x s =>
        obtain rfl := Option.some.inj hs
        simp
  obtain ⟨s, hs, rfl⟩ := within_iff.mp h
  obtain ⟨s', hs', he⟩ := within_iff.mp h'
  have hcs : c ++ s = c' ++ s' := by simpa using he
  rw [← htake hc hs, hcs, htake hc' hs']

namespace Rooted

variable {idx : FileIndex} {base : Path}

theorem firstChild (h : Rooted idx base) {d : Path} (hd : base.length ≤ d.length) (n : ℕ) :
    ∀ q, q.length ≤ n → idx.Indexed q → Under d q →
    ∃ c, '/' ∉ c ∧ idx.dirs.has d = true ∧ idx.Indexed (d ++ '/' :: c) ∧
      Within (d ++ '/' :: c) q := by
  induction n with
  | zero =>
    intro q hlen _ hu
    have := hu.length
    omega
  | succ n ih =>
    intro q hlen hq hu
    rcases h.parent q hq with rfl | ⟨p, c, rfl, hc, hp⟩
    · have := hu.length
      omega
    · rcases (under_child hc).mp hu with rfl | hup
      · exact ⟨c, hc, hp, hq, Or.inl rfl⟩
      · have hlen' : p.length ≤ n := by
          rw [List.length_append, List.length_cons] at hlen
          omega
        obtain ⟨e, he, hdd, hi, hw⟩ := ih p hlen' (Or.inr hp) hup
        have hpc : Under p (p ++ '/' :: c) := under_iff.mpr ⟨c, rfl⟩
        refine ⟨e, he, hdd, hi, Or.inr ?_⟩
        rcases hw with rfl | hw
        · exact hpc
        · exact hw.trans hpc

/-- What a turn of the walk at `current` adds. -/
def Covers (idx : FileIndex) (v : List Path) (P : Path → Prop) : Prop :=
  v.Nodup ∧ ∀ q, q ∈ v ↔ idx.Indexed q ∧ P q

theorem traverse_covers (h : Rooted idx base) {bound : ℕ}
    (hbound : ∀ q, idx.Indexed q → q.length ≤ bound) (fuel : ℕ) : ∀ {current : Path}
    (s : List Path), base.length ≤ current.length → Clean current → 1 ≤ fuel →
    bound + 2 ≤ fuel + current.length →
    ∃ v, idx.traverse collect fuel current s = some (s ++ v, true) ∧
      Covers idx v (Within current) := by
  induction fuel with
  | zero => exact fun _ _ _ h1 => absurd h1 (by omega)
  | succ fuel ih =>
    intro current s hbase hclean _ hfuel
    have hnone : idx.dirs.has current = false → ∀ q, idx.Indexed q → ¬ Under current q := by
      intro hd q hq hu
      obtain ⟨-, -, hdd, -⟩ := h.firstChild hbase q.length q le_rfl hq hu
      rw [hd] at hdd
      cases hdd
    unfold traverse
    cases hfile : idx.getFileInfo current with
    | some info =>
      have hload : idx.files.load current = some info := by
        unfold getFileInfo at hfile
        split_ifs at hfile
        exact hfile
      have hd : idx.dirs.has current = false := by
        by_contra hn
        rw [h.disjoint current (by simpa using hn)] at hload
        cases hload
      refine ⟨[current], rfl, List.nodup_singleton _, fun q => ?_⟩
      rw [List.mem_singleton]
      constructor
      · rintro rfl
        exact ⟨Or.inl ((GoMap.has_eq_true _ _).mpr ⟨info, hload⟩), Or.inl rfl⟩
      · rintro ⟨hq, rfl | hu⟩
        · rfl
        · exact absurd hu (hnone hd q hq)
    | none =>
      have hload : idx.files.load current = none := by
        unfold getFileInfo at hfile
        split_ifs at hfile with hb
        · exact h.unblocked current hb
        · exact hfile
      dsimp only
      by_cases hd : idx.hasDir current = true
      · rw [if_pos hd]
        have hlen := hbound current (Or.inr hd)
        have hloop : ∀ (l s : List Path), l.Nodup → (∀ c ∈ l, c ∈ idx.kids current) →
            ∃ v, traverseChildren (idx.traverse collect fuel) current l s = some (s ++ v, true) ∧
              Covers idx v fun q => ∃ c ∈ l, Within (current ++ '/' :: c) q := by
          intro l
          induction l with
          | nil => exact fun s _ _ => ⟨[], by simp [traverseChildren], List.nodup_nil, by simp⟩
          | cons c l ihl =>
            intro s hnodup hlisted
            have hcl := hlisted c (List.mem_cons_self ..)
            have hplain : ∀ e ∈ c :: l, '/' ∉ e := fun e he => (h.plain current e (hlisted e he)).2
            have hclen := child_length current c
            have hbase' : base.length ≤ (current ++ '/' :: c).length := by omega
            obtain ⟨v₁, ht₁, hn₁, hm₁⟩ := ih s hbase' (h.cleanPath current c hcl) (by omega)
              (by omega)
            obtain ⟨v₂, ht₂, hn₂, hm₂⟩ := ihl (s ++ v₁) (List.nodup_cons.mp hnodup).2
              fun e he => hlisted e (List.mem_cons_of_mem _ he)
            refine ⟨v₁ ++ v₂, ?_, ?_, fun q => ?_⟩
            · unfold traverseChildren
              rw [join_listed h.toLists hcl, ht₁]
              dsimp only
              rw [ht₂, List.append_assoc]
            · refine List.nodup_append.mpr ⟨hn₁, hn₂, fun q hq₁ q' hq₂ => ?_⟩
              rintro rfl
              obtain ⟨e, he, hw⟩ := ((hm₂ q).mp hq₂).2
              have hce := within_child_inj (hplain c (List.mem_cons_self ..))
                (hplain e (List.mem_cons_of_mem _ he)) ((hm₁ q).mp hq₁).2 hw
              exact (List.nodup_cons.mp hnodup).1 (hce ▸ he)
            · rw [List.mem_append, hm₁, hm₂]
              simp only [List.mem_cons, exists_eq_or_imp]
              exact and_or_left.symm
        obtain ⟨v, ht, hn, hm⟩ := hloop (idx.kids current) (s ++ [current]) (h.nodup current)
          fun c hc => hc
        have hshort : ∀ q ∈ v, current.length < q.length := by
          intro q hq
          obtain ⟨c, -, hw⟩ := ((hm q).mp hq).2
          have := child_length current c
          rcases hw with rfl | hw
          · exact this
          · exact this.trans hw.length
        refine ⟨current :: v, ?_, ?_, fun q => ?_⟩
        · have hc : ∀ info isDir, collect s current info isDir = (s ++ [current], true) :=
            fun _ _ => rfl
          rw [hc, getChildren_clean idx hclean]
          dsimp only
          rw [if_pos rfl, ht]
          simp
        · refine List.nodup_cons.mpr ⟨fun hq => ?_, hn⟩
          exact absurd (hshort current hq) (lt_irrefl _)
        · rw [List.mem_cons, hm]
          constructor
          · rintro (rfl | ⟨hq, c, -, hw⟩)
            · exact ⟨Or.inr hd, Or.inl rfl⟩
            · have hpc : Under current (current ++ '/' :: c) := under_iff.mpr ⟨c, rfl⟩
              refine ⟨hq, Or.inr ?_⟩
              rcases hw with rfl | hw
              · exact hpc
              · exact hpc.trans hw
          · rintro ⟨hq, rfl | hu⟩
            · exact Or.inl rfl
            · obtain ⟨c, hc, -, hi, hw⟩ := h.firstChild hbase q.length q le_rfl hq hu
              refine Or.inr ⟨hq, c, h.listed current c hc ?_ hi, hw⟩
              intro he
              have := congrArg List.length he
              have := child_length current c
              omega
      · rw [if_neg hd]
        refine ⟨[], by simp, List.nodup_nil, fun q => ?_⟩
        constructor
        · exact fun hq => absurd hq List.not_mem_nil
        · rintro ⟨hq, rfl | hu⟩
          · rcases hq with hf | hdd
            · rw [GoMap.has, hload] at hf
              cases hf
            · exact absurd hdd hd
          · exact absurd hu (hnone (by simpa [hasDir] using hd) q hq)

theorem exists_bound (idx : FileIndex) : ∃ bound, ∀ q, idx.Indexed q → q.length ≤ bound := by
  refine ⟨((idx.files.keys ++ idx.dirs.keys).map List.length).sum, fun q hq => ?_⟩
  refine List.le_sum_of_mem (List.mem_map.mpr ⟨q, ?_, rfl⟩)
  rw [List.mem_append]
  exact hq.imp (GoMap.load_isSome _ _).mp (GoMap.load_isSome _ _).mp

theorem within (h : Rooted idx base) (n : ℕ) : ∀ q, q.length ≤ n → idx.Indexed q →
    Within base q := by
  induction n with
  | zero =>
    intro q hlen hq
    rcases h.parent q hq with rfl | ⟨p, c, rfl, -, -⟩
    · exact Or.inl rfl
    · simp at hlen
  | succ n ih =>
    intro q hlen hq
    rcases h.parent q hq with rfl | ⟨p, c, rfl, hc, hp⟩
    · exact Or.inl rfl
    · rw [List.length_append, List.length_cons] at hlen
      refine Or.inr ((under_child hc).mpr ?_)
      rcases ih p (by omega) (Or.inr hp) with rfl | hu
      · exact Or.inl rfl
      · exact Or.inr hu

theorem visits (h : Rooted idx base) : ∃ visited, Visits idx base visited ∧ visited.Nodup ∧
    ∀ q, q ∈ visited ↔ idx.Indexed q := by
  obtain ⟨bound, hbound⟩ := exists_bound idx
  obtain ⟨v, ht, hn, hm⟩ := h.traverse_covers hbound (bound + 2) [] le_rfl h.cleanBase (by omega)
    (by omega)
  refine ⟨v, ⟨bound + 2, ?_⟩, hn, fun q => ?_⟩
  · unfold walk
    rw [h.cleanBase, ht, List.nil_append]
  · rw [hm]
    exact ⟨fun hq => hq.1, fun hq => ⟨hq, h.within q.length q le_rfl hq⟩⟩

end Rooted

end RenoP.Index.FileIndex

/-!
## Rebuilding the index from a scan (internal/service/index/builder.go)

`Orders` are the orders of the four ranges of `applyScanMaps`.
-/

namespace RenoP.Index

open SlashPath

structure ScanMaps where
  files : GoMap Path FileInfo
  dirs : GoMap Path Unit

structure Orders where
  files : GoMap.RangeOrder Path FileInfo
  scannedFiles : GoMap.RangeOrder Path FileInfo
  dirs : GoMap.RangeOrder Path Bool
  scannedDirs : GoMap.RangeOrder Path Unit

namespace FileIndex

/-- `idx.RemoveFile(k)` for the indexed files the scan did not find (builder.go:182-191). -/
def removeGoneFiles (idx : FileIndex) (scanned : ScanMaps) (o : Orders) : FileIndex :=
  ((o.files.keys idx.files).filter fun f => !scanned.files.has f).foldl removeFile idx

/-- The body of the range over the scanned files (builder.go:193-198). -/
def insertScannedFile (scanned : ScanMaps) (idx : FileIndex) (f : Path) : FileIndex :=
  match scanned.files.load f with
  | none => idx
  | some info =>
    match idx.getFileInfo f with
    | some oldInfo => if sameFileMetadata oldInfo info then idx else idx.insertFile f info
    | none => idx.insertFile f info

def insertScannedFiles (idx : FileIndex) (scanned : ScanMaps) (o : Orders) : FileIndex :=
  (o.scannedFiles.keys scanned.files).foldl (insertScannedFile scanned) idx

/-- `idx.RemoveDir(k)` for the indexed directories the scan did not find (builder.go:200-209). -/
def removeGoneDirs (idx : FileIndex) (scanned : ScanMaps) (o : Orders) : FileIndex :=
  ((o.dirs.keys idx.dirs).filter fun d => !scanned.dirs.has d).foldl removeDir idx

/-- The range over the scanned directories (builder.go:211-215). -/
def insertScannedDirs (idx : FileIndex) (scanned : ScanMaps) (o : Orders) : FileIndex :=
  (o.scannedDirs.keys scanned.dirs).foldl
    (fun idx d => if !idx.hasDir d then idx.insertDir d else idx) idx

/-- builder.go:181-216. -/
def applyScanMaps (idx : FileIndex) (scanned : ScanMaps) (o : Orders) : FileIndex :=
  (((idx.removeGoneFiles scanned o).insertScannedFiles scanned o).removeGoneDirs scanned o).insertScannedDirs
    scanned o

end FileIndex

def Name (b : Path) : Prop := b ≠ [] ∧ b ≠ dot ∧ b ≠ dotDot ∧ '/' ∉ b

instance (b : Path) : Decidable (Name b) := inferInstanceAs (Decidable (_ ∧ _))

/-- What a scan of `base` yields: files apart from directories, and every path but the base a
named entry of a scanned directory. -/
structure ScanMaps.WellFormed (scanned : ScanMaps) (base : Path) : Prop where
  clean : Clean base
  baseDir : scanned.dirs.has base = true
  disjoint : ∀ q, scanned.dirs.has q = true → scanned.files.load q = none
  parent : ∀ q, q ≠ base → scanned.files.has q = true ∨ scanned.dirs.has q = true →
    ∃ p b, q = p ++ '/' :: b ∧ Name b ∧ scanned.dirs.has p = true

theorem ScanMaps.wellFormed_of_keys {scanned : ScanMaps} {base : Path} (hclean : Clean base)
    (hbase : scanned.dirs.has base = true)
    (hdisjoint : ∀ q ∈ scanned.dirs.keys, scanned.files.load q = none)
    (hparent : ∀ q ∈ scanned.files.keys ++ scanned.dirs.keys, q ≠ base →
      (cutLast q).any (fun pb => decide (Name pb.2) && scanned.dirs.has pb.1) = true) :
    scanned.WellFormed base := by
  refine ⟨hclean, hbase, fun q hq => hdisjoint q ((GoMap.load_isSome _ _).mp hq),
    fun q hne hq => ?_⟩
  have hmem : q ∈ scanned.files.keys ++ scanned.dirs.keys := by
    rw [List.mem_append]
    exact hq.imp (GoMap.load_isSome _ _).mp (GoMap.load_isSome _ _).mp
  have hany := hparent q hmem hne
  cases hc : cutLast q with
  | none =>
    rw [hc] at hany
    cases hany
  | some pb =>
    rw [hc] at hany
    simp only [Option.any_some, Bool.and_eq_true, decide_eq_true_eq] at hany
    exact ⟨pb.1, pb.2, (cutLast_eq_some.mp hc).1, hany.1, hany.2⟩

namespace FileIndex

/-- The index holds what the scan found, blocked files apart, and a walk from the base visits
every entry once. -/
structure Repaired (idx : FileIndex) (scanned : ScanMaps) (base : Path) : Prop where
  files : ∀ f, (idx.files.load f).map (fun info => (info.size, info.modTime)) =
    if idx.isBlocked f then none
    else (scanned.files.load f).map fun info => (info.size, info.modTime)
  dirs : ∀ d, idx.dirs.has d = scanned.dirs.has d
  walk : ∃ visited, Visits idx base visited ∧ visited.Nodup ∧ ∀ q, q ∈ visited ↔ idx.Indexed q

def Wanted (idx : FileIndex) (scanned : ScanMaps) (f : Path) : Prop :=
  scanned.files.has f = true ∧ idx.isBlocked f = false

def Unchanged (idx : FileIndex) (scanned : ScanMaps) (f : Path) : Prop :=
  ∃ old info, idx.files.load f = some old ∧ scanned.files.load f = some info ∧
    sameFileMetadata old info = true

/-- Everything above the file, down from the parent of the base, is indexed already and the base
is listed: `RemoveDir` of the parent takes it all along. -/
def SweptAway (idx : FileIndex) (scanned : ScanMaps) (base f : Path) : Prop :=
  ∃ p b, base = p ++ '/' :: b ∧ b ∈ idx.kids p ∧ idx.dirs.has p = true ∧
    ∀ d, scanned.dirs.has d = true → Under d f → idx.dirs.has d = true

/-- The states and scans that a rebuild repairs. Entries that it leaves as they are must be
listed, in a directory that was not a file before. -/
structure Repairable (idx : FileIndex) (scanned : ScanMaps) (base : Path) : Prop where
  basePath : Tracked base ∨ (∀ f, ¬ Wanted idx scanned f) ∧ ∀ d, scanned.dirs.has d = true → d = base
  files : ∀ p b, '/' ∉ b → Wanted idx scanned (p ++ '/' :: b) →
    Unchanged idx scanned (p ++ '/' :: b) → b ∈ idx.kids p ∧ idx.files.load p = none
  dirs : ∀ p b, '/' ∉ b → p ++ '/' :: b ≠ base → scanned.dirs.has (p ++ '/' :: b) = true →
    idx.dirs.has (p ++ '/' :: b) = true → b ∈ idx.kids p ∧ idx.files.load p = none
  swept : ∀ f, Wanted idx scanned f → ¬ SweptAway idx scanned base f

end FileIndex

end RenoP.Index
