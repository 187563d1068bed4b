import RenoP.Index.Rebuild

/-!
# What a rebuild repairs

After `applyScanMaps` the index is the scan and the walk from the base is whole exactly when the
state before was `Repairable`, whatever the orders of the ranges (`repaired_iff`).
-/

namespace RenoP.Index.FileIndex
open SlashPath

/-- What the loops make of `idx`: `b` after the files, `c` after the directories that are gone,
`out` at the end. -/
structure Loops (S : Set Path) (scanned : ScanMaps) (idx b c out : FileIndex) : Prop where
  wanted : ∀ f, Wanted idx scanned f → ∃ info info', scanned.files.load f = some info ∧
    b.files.load f = some info' ∧ sameFileMetadata info' info = true
  unwanted : ∀ f, ¬ Wanted idx scanned f → b.files.load f = none
  dirs : ∀ d, b.dirs.has d = true → idx.dirs.has d = true
  dirsKept : ∀ d, idx.dirs.has d = true → scanned.files.load d = none →
    (∀ f, scanned.files.has f = true → ¬ Under f d) → b.dirs.has d = true
  kids : ∀ p x, x ∈ b.kids p → x ∈ idx.kids p ∧
    (scanned.files.has p = true ∨ idx.files.load p = none) ∨
    Wanted idx scanned (p ++ '/' :: x) ∧ ¬ Unchanged idx scanned (p ++ '/' :: x)
  exact : Exact S Set.univ b
  cleared : Cleared S scanned b c
  outExact : Exact S Set.univ out
  outFiles : out.files = c.files
  outBlocked : ∀ q, out.isBlocked q = idx.isBlocked q
  outDirs : ∀ q, out.dirs.has q = true ↔ c.dirs.has q = true ∨ scanned.dirs.has q = true
  outKids : ∀ p x, x ∈ out.kids p → x ∈ c.kids p ∨
    scanned.dirs.has (p ++ '/' :: x) = true ∧ c.dirs.has (p ++ '/' :: x) = false

section Tracked

variable {S : Set Path} {idx b c out : FileIndex} {scanned : ScanMaps} {base : Path}

theorem blocked_no_file (hbook : Bookkept idx) {q : Path} (hq : idx.isBlocked q = true) :
    idx.files.load q = none := by
  rw [isBlocked_eq hbook] at hq
  exact hbook.unblocked q hq

theorem removeGoneFiles_exact (h : Tidy idx) (hw : scanned.WellFormed base) (o : Orders)
    (hS : ∀ q, q ∉ S → Wanted idx scanned q ∨ scanned.dirs.has q = true)
    (hlisted : ∀ p x, '/' ∉ x → p ++ '/' :: x ∉ S →
      Wanted idx scanned (p ++ '/' :: x) ∧ Unchanged idx scanned (p ++ '/' :: x) ∨
        scanned.dirs.has (p ++ '/' :: x) = true ∧ idx.dirs.has (p ++ '/' :: x) = true →
      x ∈ idx.kids p ∧ idx.files.load p = none) :
    Exact (S ∪ {f | Wanted idx scanned f ∧ ¬ Unchanged idx scanned f}) Set.univ
      (idx.removeGoneFiles scanned o) := by
  obtain ⟨h1, h2, -, h4, h5⟩ := removeGoneFiles_spec h scanned o
  refine { h1 with complete := fun p x hp hx hnS hi => ?_ }
  rw [Set.mem_union, not_or] at hnS
  rw [h5 p x hp hx]
  rcases hS _ hnS.1 with hwant | hd
  · have hun : Unchanged idx scanned (p ++ '/' :: x) := by
      by_contra hn
      exact hnS.2 ⟨hwant, hn⟩
    obtain ⟨hk, hp⟩ := hlisted p x hx hnS.1 (Or.inl ⟨hwant, hun⟩)
    exact ⟨hk, Or.inr hp, Or.inl hwant.1⟩
  · have hdir : idx.dirs.has (p ++ '/' :: x) = true := by
      rcases hi with hf | hdd
      · rw [GoMap.has, h4] at hf
        split_ifs at hf with hs
        · rw [GoMap.has, hw.disjoint _ hd] at hs
          cases hs
        · cases hf
      · rwa [h2] at hdd
    obtain ⟨hk, hp⟩ := hlisted p x hx hnS.1 (Or.inr ⟨hd, hdir⟩)
    exact ⟨hk, Or.inr hp, Or.inr (h.disjoint _ hdir)⟩

theorem applyScanMaps_loops (h : Tidy idx) (hbook : Bookkept idx) (hw : scanned.WellFormed base)
    (ht : Tracked base) (o : Orders)
    (hS : ∀ q, q ∉ S → Wanted idx scanned q ∨ scanned.dirs.has q = true)
    (hlisted : ∀ p x, '/' ∉ x → p ++ '/' :: x ∉ S →
      Wanted idx scanned (p ++ '/' :: x) ∧ Unchanged idx scanned (p ++ '/' :: x) ∨
        scanned.dirs.has (p ++ '/' :: x) = true ∧ idx.dirs.has (p ++ '/' :: x) = true →
      x ∈ idx.kids p ∧ idx.files.load p = none) :
    ∃ b c, Loops S scanned idx b c (idx.applyScanMaps scanned o) := by
  obtain ⟨h1, h2, h3, h4, h5⟩ := removeGoneFiles_spec h scanned o
  have hex := removeGoneFiles_exact h hw o hS hlisted
  set a := idx.removeGoneFiles scanned o with ha
  have hwanted : ∀ f, Wanted a scanned f ↔ Wanted idx scanned f := by
    intro f
    unfold Wanted
    rw [isBlocked_congr h3]
  have hunchanged : ∀ f, Unchanged a scanned f ↔ Unchanged idx scanned f := by
    intro f
    unfold Unchanged
    rw [h4]
    by_cases hf : scanned.files.has f = true
    · rw [if_pos hf]
    · have hnone : scanned.files.load f = none := (GoMap.has_eq_false _ _).mp (by simpa using hf)
      simp [hnone]
  have haf : ∀ q, a.files.has q = true → scanned.files.has q = true := by
    intro q hq
    by_contra hn
    rw [GoMap.has, h4, if_neg hn] at hq
    cases hq
  have hscan : ∀ q, q ∉ S → Scanned scanned q := fun q hq => (hS q hq).imp And.left id
  simp only [← hwanted, ← hunchanged] at hex
  have hfill := insertScannedFiles_filled hw ht o haf hscan hex
  set b := a.insertScannedFiles scanned o with hb
  have hbex : Exact S Set.univ b := by
    refine hfill.exact.mono ?_ (Set.Subset.refl _)
    rintro q (hq | ⟨hq, -⟩)
    · exact hq
    · exact absurd hq List.not_mem_nil
  have hbelow : ∀ f x, scanned.files.has f = true → '/' ∉ x → f ++ '/' :: x ∈ S := by
    intro f x hf _
    by_contra hn
    exact not_under_file hw hf _ _ le_rfl (hscan _ hn) (under_iff.mpr ⟨x, rfl⟩)
  have hclear := removeGoneDirs_cleared o hbex (fun q hq => hfill.scannedFiles haf hq) hbelow
  set c := b.removeGoneDirs scanned o with hc
  have hunwanted : ∀ f, ¬ Wanted idx scanned f → b.files.load f = none := by
    intro f hf
    rw [hfill.todo f (Or.inr fun hn => hf ((hwanted f).mp hn)), h4]
    split_ifs with hs
    · exact blocked_no_file hbook (by simpa [Wanted, hs] using hf)
    · rfl
  have hcfile : ∀ d, scanned.dirs.has d = true → c.files.load d = none := by
    intro d hd
    have hnone : b.files.load d = none := hunwanted d fun hn => by
      rw [Wanted, GoMap.has, hw.disjoint d hd] at hn
      exact absurd hn.1 Bool.false_ne_true
    rcases hclear.files d with h6 | h6
    · exact h6
    · rw [h6, hnone]
  obtain ⟨h6, h7, h8, h9, h10⟩ := insertScannedDirs_spec o hclear.exact
    (fun d hd => scanned_clean hw ht d.length d le_rfl (Or.inr hd)) hcfile
  refine ⟨b, c, fun f hf => hfill.done f List.not_mem_nil ((hwanted f).mpr hf), hunwanted,
    fun d hd => h2 ▸ hfill.dirs d hd, fun d hd => hfill.dirsKept d (h2 ▸ hd), fun p x hx => ?_,
    hbex, hclear, h6, h7, fun q => ?_, h9, h10⟩
  · rcases hfill.kids p x hx with hk | hk
    · obtain ⟨htp, hpx⟩ := h1.plain p x hk
      obtain ⟨hk1, hk2, -⟩ := (h5 p x htp hpx).mp hk
      exact Or.inl ⟨hk1, hk2⟩
    · rw [hwanted, hunchanged] at hk
      exact Or.inr hk
  · exact isBlocked_congr (h8.trans (hclear.blocked.trans (hfill.blocked.trans h3))) q

theorem not_wanted_dir (hw : scanned.WellFormed base) {d : Path}
    (hd : scanned.dirs.has d = true) : ¬ Wanted idx scanned d := by
  intro hn
  have hf := hn.1
  rw [GoMap.has, hw.disjoint d hd] at hf
  cases hf

theorem Loops.notFile (h : Loops S scanned idx b c out) {d : Path}
    (hd : ¬ Wanted idx scanned d) : c.files.load d = none := by
  rcases h.cleared.files d with hf | hf
  · exact hf
  · rw [hf, h.unwanted d hd]

theorem Loops.removed_chain (h : Loops S scanned idx b c out) (hw : scanned.WellFormed base)
    (n : ℕ) : ∀ q, q.length ≤ n → Wanted idx scanned q ∨ scanned.dirs.has q = true →
    b.Indexed q → ¬ c.Indexed q → SweptAway b scanned base q := by
  induction n with
  | zero =>
    intro q hlen hq _ _
    by_cases hne : q = base
    · exact absurd (hw.clean) (by
        rw [← hne, List.length_eq_zero_iff.mp (Nat.le_zero.mp hlen)]
        decide)
    · obtain ⟨p, x, rfl, -, -⟩ := hw.parent q hne (hq.imp And.left id)
      simp at hlen
  | succ n ih =>
    intro q hlen hq hin hout
    rcases h.cleared.reached q hin hout with ⟨hd, hs⟩ | ⟨p, x, rfl, hx, hpb, hpc⟩
    · rcases hq with hq | hq
      · obtain ⟨-, info', -, hl, -⟩ := h.wanted q hq
        rw [h.exact.disjoint q hd] at hl
        cases hl
      · rw [hs] at hq
        cases hq
    have hxp := (h.exact.plain p x hx).2
    by_cases hne : p ++ '/' :: x = base
    · refine ⟨p, x, hne.symm, hx, hpb, fun d hd hu => ?_⟩
      have h1 := scanned_length hw (Or.inr hd)
      have h2 := hu.length
      rw [hne] at h2
      omega
    have hps := scanned_parent hw hxp (hq.imp And.left id) hne
    have hpout : ¬ c.Indexed p := by
      rintro (hf | hdd)
      · rw [GoMap.has, h.notFile (not_wanted_dir hw hps)] at hf
        cases hf
      · rw [hpc] at hdd
        cases hdd
    rw [List.length_append, List.length_cons] at hlen
    obtain ⟨p', x', hb', hx', hd', hall⟩ := ih p (by omega) (Or.inr hps) (Or.inr hpb) hpout
    refine ⟨p', x', hb', hx', hd', fun d hd hu => ?_⟩
    rcases (under_child hxp).mp hu with rfl | hu
    · exact hpb
    · exact hall d hd hu

theorem Loops.repaired (h : Loops S scanned idx b c out) (hw : scanned.WellFormed base)
    (ht : Tracked base)
    (hS : ∀ q, q ≠ base → Wanted idx scanned q ∨ scanned.dirs.has q = true → q ∉ S)
    (hswept : ∀ f, Wanted idx scanned f → ¬ SweptAway idx scanned base f) :
    Repaired out scanned base := by
  -- no wanted file goes with the directories
  have hkept : ∀ f, Wanted idx scanned f → c.files.load f = b.files.load f := by
    intro f hf
    obtain ⟨-, info', -, hl, -⟩ := h.wanted f hf
    by_contra hne
    have hnone := (h.cleared.files f).resolve_right hne
    have hout : ¬ c.Indexed f := by
      rintro (hcf | hcd)
      · rw [GoMap.has, hnone] at hcf
        cases hcf
      · have hd := hf.1
        rw [GoMap.has, hw.disjoint f (h.cleared.dirs f hcd).2] at hd
        cases hd
    obtain ⟨p, x, rfl, hx, hp, hall⟩ := h.removed_chain hw f.length f le_rfl (Or.inl hf)
      (Or.inl ((GoMap.has_eq_true _ _).mpr ⟨info', hl⟩)) hout
    refine hswept f hf ⟨p, x, rfl, ?_, h.dirs p hp, fun d hd hu => h.dirs d (hall d hd hu)⟩
    rcases h.kids p x hx with hk | hk
    · exact hk.1
    · exact absurd hk.1 (not_wanted_dir hw hw.baseDir)
  have hfile : ∀ q, out.files.has q = true ↔ Wanted idx scanned q := by
    intro q
    rw [GoMap.has, h.outFiles]
    constructor
    · intro hq
      by_contra hn
      rw [h.notFile hn] at hq
      cases hq
    · intro hq
      obtain ⟨-, info', -, hl, -⟩ := h.wanted q hq
      rw [hkept q hq, hl]
      rfl
  have hdir : ∀ q, out.dirs.has q = true ↔ scanned.dirs.has q = true := by
    intro q
    rw [h.outDirs]
    exact ⟨fun hq => hq.elim (fun hc => (h.cleared.dirs q hc).2) id, Or.inr⟩
  have hindexed : ∀ q, out.Indexed q → Wanted idx scanned q ∨ scanned.dirs.has q = true :=
    fun q hq => hq.imp (hfile q).mp (hdir q).mp
  have hrooted : Rooted out base := by
    refine ⟨h.outExact.toLists, (hdir base).mpr hw.baseDir, hw.clean, h.outExact.disjoint,
      fun q hq => ?_, fun q hq => ?_, fun p x hx hne hi => ?_⟩
    · rw [h.outBlocked] at hq
      rw [← GoMap.has_eq_false]
      by_contra hn
      rw [((hfile q).mp (by simpa using hn)).2] at hq
      cases hq
    · by_cases hne : q = base
      · exact Or.inl hne
      · obtain ⟨p, x, he, hx, hp⟩ := hw.parent q hne ((hindexed q hq).imp And.left id)
        exact Or.inr ⟨p, x, he, hx.2.2.2, (hdir p).mpr hp⟩
    · have hsc := hindexed _ hi
      have hp := scanned_parent hw hx (hsc.imp And.left id) hne
      exact h.outExact.complete p x (scanned_tracked hw ht (Or.inr hp)) hx (hS _ hne hsc) hi
  refine ⟨fun f => ?_, fun d => ?_, hrooted.visits⟩
  · rw [h.outFiles, h.outBlocked]
    by_cases hf : Wanted idx scanned f
    · obtain ⟨info, info', hi, hl, hsame⟩ := h.wanted f hf
      rw [hkept f hf, hl, hi, if_neg (by rw [hf.2]; decide)]
      simpa [sameFileMetadata] using hsame
    · rw [h.notFile hf]
      split_ifs with hb
      · rfl
      · have hnone : scanned.files.load f = none := by
          rw [← GoMap.has_eq_false]
          by_contra hn
          exact hf ⟨by simpa using hn, by simpa using hb⟩
        rw [hnone]
  · rw [Bool.eq_iff_iff]
    exact hdir d

theorem Loops.listed_of_repaired (h : Loops S scanned idx b c out) (hw : scanned.WellFormed base)
    (hr : Repaired out scanned base) {p x : Path} (hx : '/' ∉ x) (hne : p ++ '/' :: x ≠ base)
    (hq : Wanted idx scanned (p ++ '/' :: x) ∨ scanned.dirs.has (p ++ '/' :: x) = true) :
    x ∈ out.kids p := by
  obtain ⟨visited, hv, -, hm⟩ := hr.walk
  have hin : out.Indexed (p ++ '/' :: x) := by
    rcases hq with hf | hd
    · refine Or.inl ?_
      have hfile := hr.files (p ++ '/' :: x)
      rw [h.outBlocked, hf.2, if_neg Bool.false_ne_true] at hfile
      obtain ⟨info, hi⟩ := (GoMap.has_eq_true _ _).mp hf.1
      rw [hi] at hfile
      unfold GoMap.has
      cases hl : out.files.load (p ++ '/' :: x) with
      | none =>
        rw [hl] at hfile
        cases hfile
      | some info' => rfl
    · exact Or.inr ((hr.dirs _).trans hd)
  rcases hv.listed h.outExact.toLists hw.clean _ ((hm _).mpr hin) with he | ⟨p', x', he, hx'⟩
  · exact absurd he hne
  · obtain ⟨rfl, rfl⟩ := child_inj hx (h.outExact.plain p' x' hx').2 he
    exact hx'

theorem Loops.keepsScannedDir (h : Loops S scanned idx b c out) (hw : scanned.WellFormed base)
    {d : Path} (hd : idx.dirs.has d = true)
    (hs : scanned.dirs.has d = true ∨ ∃ x, '/' ∉ x ∧ base = d ++ '/' :: x) :
    b.dirs.has d = true := by
  rcases hs with hs | ⟨x, hx, hbase⟩
  · exact h.dirsKept d hd (hw.disjoint d hs)
      fun f hf => not_under_file hw hf d.length d le_rfl (Or.inr hs)
  · have hub : Under d base := under_iff.mpr ⟨x, hbase⟩
    refine h.dirsKept d hd ?_ fun f hf hu => ?_
    · rw [← GoMap.has_eq_false]
      by_contra hn
      have h1 := scanned_length hw (Or.inl (by simpa using hn))
      have h2 := hub.length
      omega
    · have h1 := scanned_length hw (Or.inl hf)
      have h2 := hub.length
      have h3 := hu.length
      omega

theorem Loops.unchanged_listed (h : Loops S scanned idx b c out) (hw : scanned.WellFormed base)
    (hr : Repaired out scanned base) {p x : Path} (hx : '/' ∉ x)
    (hwant : Wanted idx scanned (p ++ '/' :: x)) (hun : Unchanged idx scanned (p ++ '/' :: x)) :
    x ∈ idx.kids p ∧ idx.files.load p = none := by
  have hne : p ++ '/' :: x ≠ base := by
    intro he
    exact not_wanted_dir hw hw.baseDir (he ▸ hwant)
  have hp := scanned_parent hw hx (Or.inl hwant.1) hne
  rcases h.outKids p x (h.listed_of_repaired hw hr hx hne (Or.inl hwant)) with hk | ⟨hd, -⟩
  · rcases h.kids p x (h.cleared.kids p hk) with ⟨h1, h2⟩ | ⟨-, hn⟩
    · refine ⟨h1, h2.resolve_left fun hf => ?_⟩
      rw [GoMap.has, hw.disjoint p hp] at hf
      cases hf
    · exact absurd hun hn
  · exact absurd hwant (not_wanted_dir hw hd)

theorem Loops.dir_listed (h : Loops S scanned idx b c out) (hw : scanned.WellFormed base)
    (hr : Repaired out scanned base) {p x : Path} (hx : '/' ∉ x) (hne : p ++ '/' :: x ≠ base)
    (hd : scanned.dirs.has (p ++ '/' :: x) = true) (hi : idx.dirs.has (p ++ '/' :: x) = true) :
    x ∈ idx.kids p ∧ idx.files.load p = none := by
  have hp := scanned_parent hw hx (Or.inr hd) hne
  have hnw : ¬ Wanted idx scanned (p ++ '/' :: x) := not_wanted_dir hw hd
  have hkb : x ∈ b.kids p := by
    by_contra hn
    have hkeep := h.cleared.keepsDir hx (h.keepsScannedDir hw hi (Or.inl hd)) hd
      (h.unwanted _ hnw) hn h.exact.toLists
    rcases h.outKids p x (h.listed_of_repaired hw hr hx hne (Or.inr hd)) with hk | ⟨-, hnd⟩
    · exact hn (h.cleared.kids p hk)
    · rw [hkeep] at hnd
      cases hnd
  rcases h.kids p x hkb with ⟨h1, h2⟩ | ⟨hn, -⟩
  · refine ⟨h1, h2.resolve_left fun hf => ?_⟩
    rw [GoMap.has, hw.disjoint p hp] at hf
    cases hf
  · exact absurd hn hnw

theorem Cleared.keepsListing (h : Cleared S scanned b c) {p x : Path} (hd : b.dirs.has p = true)
    (hx : x ∈ c.kids p) : c.dirs.has p = true := by
  refine (h.dropped p hd).resolve_right fun hn => ?_
  rw [hn] at hx
  exact List.not_mem_nil hx

theorem Loops.swept (h : Loops S scanned idx b c out) (hl : Lists idx)
    (hw : scanned.WellFormed base) (ht : Tracked base)
    (hS : ∀ q, Wanted idx scanned q ∨ scanned.dirs.has q = true → q ∉ S)
    {f : Path} (hf : Wanted idx scanned f) (hsw : SweptAway idx scanned base f) :
    c.files.load f = none := by
  obtain ⟨p, x, hbase, hx, hp, hall⟩ := hsw
  obtain ⟨htp, hxp⟩ := hl.plain p x hx
  have hpb := h.keepsScannedDir hw hp (Or.inr ⟨x, hxp, hbase⟩)
  -- an entry of the chain that is left would keep the parent of the base in the index
  have hchain : ∀ n q, q.length ≤ n → Wanted idx scanned q ∨ scanned.dirs.has q = true →
      q = f ∨ Under q f → ¬ c.Indexed q := by
    have hbaseGone : ¬ c.Indexed base := by
      intro hi
      rw [hbase] at hi
      have hk := h.cleared.exact.complete p x htp hxp
        (hS _ (Or.inr (by rw [← hbase]; exact hw.baseDir))) hi
      have hs := (h.cleared.dirs p (h.cleared.keepsListing hpb hk)).2
      have h1 := scanned_length hw (Or.inr hs)
      have h2 := child_length p x
      rw [← hbase] at h2
      omega
    intro n
    induction n with
    | zero =>
      intro q hlen hq _
      by_cases hne : q = base
      · exact hne ▸ hbaseGone
      · obtain ⟨p', x', rfl, -, -⟩ := hw.parent q hne (hq.imp And.left id)
        simp at hlen
    | succ n ih =>
      intro q hlen hq hqf hi
      by_cases hne : q = base
      · exact hbaseGone (hne ▸ hi)
      obtain ⟨p', x', rfl, hx', hp'⟩ := hw.parent q hne (hq.imp And.left id)
      have hpf : Under p' f := by
        have hpq : Under p' (p' ++ '/' :: x') := under_iff.mpr ⟨x', rfl⟩
        rcases hqf with rfl | hu
        · exact hpq
        · exact hpq.trans hu
      have hk := h.cleared.exact.complete p' x' (scanned_tracked hw ht (Or.inr hp')) hx'.2.2.2
        (hS _ hq) hi
      have hd' := h.keepsScannedDir hw (hall p' hp' hpf) (Or.inl hp')
      rw [List.length_append, List.length_cons] at hlen
      exact ih p' (by omega) (Or.inr hp') (Or.inr hpf)
        (Or.inr (h.cleared.keepsListing hd' hk))
  rw [← GoMap.has_eq_false]
  by_contra hn
  exact hchain f.length f le_rfl (Or.inl hf) (Or.inl rfl) (Or.inl (by simpa using hn))

theorem repaired_iff_tracked (h : Tidy idx) (hbook : Bookkept idx) (hw : scanned.WellFormed base)
    (ht : Tracked base) (o : Orders) :
    Repaired (idx.applyScanMaps scanned o) scanned base ↔ Repairable idx scanned base := by
  constructor
  · intro hr
    obtain ⟨b, c, hl⟩ := applyScanMaps_loops (S := Set.univ) h hbook hw ht o
      (fun q hq => absurd (Set.mem_univ q) hq) (fun p x _ hn => absurd (Set.mem_univ _) hn)
    have hfiles : ∀ p x, '/' ∉ x → Wanted idx scanned (p ++ '/' :: x) →
        Unchanged idx scanned (p ++ '/' :: x) → x ∈ idx.kids p ∧ idx.files.load p = none :=
      fun p x hx => hl.unchanged_listed hw hr hx
    have hdirs : ∀ p x, '/' ∉ x → p ++ '/' :: x ≠ base → scanned.dirs.has (p ++ '/' :: x) = true →
        idx.dirs.has (p ++ '/' :: x) = true → x ∈ idx.kids p ∧ idx.files.load p = none :=
      fun p x hx => hl.dir_listed hw hr hx
    refine ⟨Or.inl ht, hfiles, hdirs, fun f hf hsw => ?_⟩
    obtain ⟨p, x, hbase, hx, hp, -⟩ := id hsw
    obtain ⟨b, c, hl⟩ := applyScanMaps_loops
      (S := {q | ¬ (Wanted idx scanned q ∨ scanned.dirs.has q = true)}) h hbook hw ht o
      (fun q hq => not_not.mp hq) (fun p' x' hx' _ hq => by
        rcases hq with ⟨h1, h2⟩ | ⟨h1, h2⟩
        · exact hfiles p' x' hx' h1 h2
        · by_cases hne : p' ++ '/' :: x' = base
          · rw [hbase] at hne
            obtain ⟨rfl, rfl⟩ := child_inj hx' (h.plain p x hx).2 hne
            exact ⟨hx, h.disjoint p' hp⟩
          · exact hdirs p' x' hx' hne h1 h2)
    have hnone := hl.swept h.toLists hw ht (fun q hq hn => hn hq) hf hsw
    have hfile := hr.files f
    rw [hl.outFiles, hnone, hl.outBlocked, hf.2, if_neg Bool.false_ne_true] at hfile
    obtain ⟨info, hi⟩ := (GoMap.has_eq_true _ _).mp hf.1
    rw [hi] at hfile
    cases hfile
  · intro hr
    obtain ⟨b, c, hl⟩ := applyScanMaps_loops
      (S := {q | ¬ (Wanted idx scanned q ∨ scanned.dirs.has q = true) ∨ q = base}) h hbook hw ht o
      (fun q hq => by
        rw [Set.mem_ofPred_eq, not_or, not_not] at hq
        exact hq.1) (fun p x hx hn hq => by
        rw [Set.mem_ofPred_eq, not_or, not_not] at hn
        rcases hq with ⟨h1, h2⟩ | ⟨h1, h2⟩
        · exact hr.files p x hx h1 h2
        · exact hr.dirs p x hx hn.2 h1 h2)
    exact hl.repaired hw ht (fun q hne hq hn => hn.elim (fun h => h hq) hne) hr.swept

end Tracked

section Untracked

variable {idx : FileIndex} {scanned : ScanMaps} {base : Path}

/-- Nothing is listed below `.`, the root and the empty path. -/
def RootsEmpty (idx : FileIndex) : Prop := ∀ p, ¬ Tracked p → idx.kids p = []

theorem RootsEmpty.mono {i : FileIndex} (h : RootsEmpty idx) (hs : ∀ p, i.kids p ⊆ idx.kids p) :
    RootsEmpty i :=
  fun p hp => List.subset_nil.mp (h p hp ▸ hs p)

theorem RootsEmpty.congr {i : FileIndex} (h : RootsEmpty idx) (hc : i.children = idx.children) :
    RootsEmpty i :=
  h.mono fun p => by
    rw [kids_congr hc]
    exact List.Subset.refl _

theorem RootsEmpty.addChild {i : FileIndex} (h : RootsEmpty idx) (hc : i.children = idx.children)
    (q : Path) : RootsEmpty (i.addChild q) := by
  obtain ⟨p', b', hs⟩ : ∃ p' b', splitPathParentBase q = (p', b') := ⟨_, _, rfl⟩
  intro p hp
  rw [addChild_eq i hs]
  split_ifs with hn
  · rw [kids_store, if_neg, kids_congr hc, h p hp]
    rintro rfl
    exact hp hn.1
  · rw [kids_congr hc, h p hp]

theorem RootsEmpty.dropFile (h : RootsEmpty idx) (q : Path) : RootsEmpty (idx.dropFile q) :=
  h.mono (dropFile_pruned (K := {q}) idx rfl).kids

theorem RootsEmpty.removeDescendants (h : RootsEmpty idx) (q : Path) :
    RootsEmpty (idx.removeDescendants q) :=
  removeDescendants_preserves (fun _ p h => h.dropFile p) (fun _ _ _ h => h.congr rfl)
    (fun i p h => h.mono (kids_removeChild_subset i p)) idx q h

theorem RootsEmpty.insertFile (h : RootsEmpty idx) (q : Path) (info : FileInfo) :
    RootsEmpty (idx.insertFile q info) := by
  unfold FileIndex.insertFile FileIndex.putFile
  dsimp only
  by_cases hb : idx.isBlocked q = true
  · rw [if_pos hb]
    exact h
  rw [if_neg hb, if_neg hb]
  generalize { info with revision := idx.fileRevision + 1 } = info'
  have hrev : RootsEmpty { idx with fileRevision := idx.fileRevision + 1 } := h.congr rfl
  by_cases hd : idx.dirs.has q = true
  · rw [if_pos hd]
    have hdrop : RootsEmpty (({ idx with fileRevision := idx.fileRevision + 1 } : FileIndex)
        |>.dropDir q) := hrev.congr rfl
    have hroom := (hdrop.removeDescendants q).mono (kids_removeChild_subset _ q)
    split <;> exact hroom.addChild (by rfl) q
  · rw [if_neg hd]
    split <;> exact hrev.addChild (by rfl) q

theorem RootsEmpty.insertDir (h : RootsEmpty idx) (q : Path) : RootsEmpty (idx.insertDir q) := by
  unfold FileIndex.insertDir FileIndex.putDir
  split_ifs
  · exact h
  · exact h
  · exact h.addChild (by rfl) q

theorem RootsEmpty.removeDir (h : RootsEmpty idx) (q : Path) : RootsEmpty (idx.removeDir q) := by
  unfold FileIndex.removeDir
  dsimp only
  refine (h.removeDescendants q).mono fun p => ?_
  split_ifs
  · exact kids_removeChild_subset _ q p
  · exact kids_removeChild_subset _ q p

theorem applyScanMaps_preserves {P : FileIndex → Prop}
    (hremoveFile : ∀ i f, P i → P (i.removeFile f))
    (hinsertFile : ∀ i f info, P i → P (i.insertFile f info))
    (hremoveDir : ∀ i d, P i → P (i.removeDir d)) (hinsertDir : ∀ i d, P i → P (i.insertDir d))
    (o : Orders) (h : P idx) : P (idx.applyScanMaps scanned o) := by
  refine List.foldlRecOn _ _ (List.foldlRecOn _ _ (List.foldlRecOn _ _ (List.foldlRecOn _ _ h
    fun i hi q _ => hremoveFile i q hi) fun i hi q _ => ?_) fun i hi q _ => hremoveDir i q hi)
    fun i hi q _ => ?_
  · unfold insertScannedFile
    split
    · exact hi
    · split
      · split_ifs
        · exact hi
        · exact hinsertFile i q _ hi
      · exact hinsertFile i q _ hi
  · split_ifs
    · exact hinsertDir i q hi
    · exact hi

theorem RootsEmpty.applyScanMaps (h : RootsEmpty idx) (o : Orders) :
    RootsEmpty (idx.applyScanMaps scanned o) :=
  applyScanMaps_preserves (fun _ f hi => hi.dropFile f) (fun _ f info hi => hi.insertFile f info)
    (fun _ d hi => hi.removeDir d) (fun _ d hi => hi.insertDir d) o h

theorem applyScanMaps_blocked (idx : FileIndex) (scanned : ScanMaps) (o : Orders) :
    (idx.applyScanMaps scanned o).blocked = idx.blocked := by
  refine applyScanMaps_preserves (P := fun i => i.blocked = idx.blocked)
    (fun i f hi => (dropFile_blocked i f).trans hi) (fun i f info hi => ?_) (fun i d hi => ?_)
    (fun i d hi => ?_) o rfl
  · exact (insertFile_blocked i f info).trans hi
  · unfold removeDir
    dsimp only
    rw [removeChild_blocked]
    split_ifs
    · exact (removeDescendants_blocked i d).trans hi
    · exact (removeDescendants_blocked i d).trans hi
  · unfold insertDir putDir
    split_ifs
    · exact hi
    · exact hi
    · exact (addChild_blocked _ d).trans hi

theorem RootsEmpty.visits (h : RootsEmpty idx) (hclean : Clean base) (ht : ¬ Tracked base)
    {visited : List Path} (hv : Visits idx base visited) : ∀ q ∈ visited, q = base := by
  obtain ⟨fuel, hf⟩ := hv
  unfold walk at hf
  rw [hclean] at hf
  cases fuel with
  | zero => cases hf
  | succ fuel =>
    unfold traverse at hf
    rw [getChildren_clean idx hclean, h base ht] at hf
    cases hfile : idx.getFileInfo base with
    | some info =>
      rw [hfile] at hf
      obtain ⟨rfl, -⟩ := Prod.mk.inj (Option.some.inj hf)
      exact fun q hq => List.mem_singleton.mp hq
    | none =>
      rw [hfile] at hf
      dsimp only at hf
      split_ifs at hf
      · obtain ⟨rfl, -⟩ := Prod.mk.inj (Option.some.inj hf)
        exact fun q hq => List.mem_singleton.mp hq
      · obtain ⟨rfl, -⟩ := Prod.mk.inj (Option.some.inj hf)
        exact fun q hq => List.mem_singleton.mp hq
      · obtain ⟨rfl, -⟩ := Prod.mk.inj (Option.some.inj hf)
        exact fun q hq => absurd hq List.not_mem_nil

theorem repaired_iff_untracked (h : Tidy idx) (hbook : Bookkept idx)
    (hw : scanned.WellFormed base) (ht : ¬ Tracked base) (o : Orders) :
    Repaired (idx.applyScanMaps scanned o) scanned base ↔ Repairable idx scanned base := by
  have hroots : RootsEmpty idx := fun p hp =>
    List.eq_nil_iff_forall_not_mem.mpr fun x hx => hp (h.plain p x hx).1
  constructor
  · intro hr
    obtain ⟨visited, hv, -, hm⟩ := hr.walk
    have honly : ∀ q, (idx.applyScanMaps scanned o).Indexed q → q = base := fun q hq =>
      (hroots.applyScanMaps o).visits hw.clean ht hv q ((hm q).mpr hq)
    have hblocked : (idx.applyScanMaps scanned o).blocked = idx.blocked :=
      applyScanMaps_blocked idx scanned o
    have hnone : ∀ f, ¬ Wanted idx scanned f := by
      intro f hf
      obtain ⟨info, hi⟩ := (GoMap.has_eq_true _ _).mp hf.1
      have hfile := hr.files f
      rw [isBlocked_congr hblocked, hf.2, if_neg Bool.false_ne_true, hi] at hfile
      have hin : (idx.applyScanMaps scanned o).Indexed f := by
        refine Or.inl ?_
        unfold GoMap.has
        cases hl : (idx.applyScanMaps scanned o).files.load f with
        | none =>
          rw [hl] at hfile
          cases hfile
        | some info' => rfl
      exact not_wanted_dir hw hw.baseDir (honly f hin ▸ hf)
    have hdirs : ∀ d, scanned.dirs.has d = true → d = base := fun d hd =>
      honly d (Or.inr ((hr.dirs d).trans hd))
    exact ⟨Or.inr ⟨hnone, hdirs⟩, fun p x _ hn => absurd hn (hnone _),
      fun p x _ hne hd => absurd (hdirs _ hd) hne, fun f hn => absurd hn (hnone f)⟩
  · intro hr
    obtain ⟨hnone, hdirs⟩ := hr.basePath.resolve_left ht
    obtain ⟨h1, h2, h3, h4, -⟩ := removeGoneFiles_spec h scanned o
    have hfiles : ∀ q, (idx.removeGoneFiles scanned o).files.load q = none := by
      intro q
      rw [h4]
      split_ifs with hs
      · exact blocked_no_file hbook (by simpa [Wanted, hs] using hnone q)
      · rfl
    -- every scanned file is blocked
    have hskip : (idx.removeGoneFiles scanned o).insertScannedFiles scanned o =
        idx.removeGoneFiles scanned o := by
      refine List.foldlRecOn (motive := fun i => i = idx.removeGoneFiles scanned o) _ _ rfl ?_
      rintro i rfl f hf
      have hb : (idx.removeGoneFiles scanned o).isBlocked f = true := by
        rw [isBlocked_congr h3]
        simpa [Wanted, (o.scannedFiles.mem_keys _ f).mp hf] using hnone f
      have hget : (idx.removeGoneFiles scanned o).getFileInfo f = none := if_pos hb
      have hins : ∀ info, (idx.removeGoneFiles scanned o).insertFile f info =
          idx.removeGoneFiles scanned o := fun info => if_pos hb
      unfold insertScannedFile
      rw [hget]
      cases scanned.files.load f with
      | none => rfl
      | some info => exact hins info
    have hafiles : ∀ q, (idx.removeGoneFiles scanned o).files.has q = true →
        scanned.files.has q = true := by
      intro q hq
      rw [GoMap.has, hfiles] at hq
      cases hq
    have hclear := removeGoneDirs_cleared o h1 hafiles fun f x _ _ => Set.mem_univ _
    have hcfiles : ∀ q, ((idx.removeGoneFiles scanned o).removeGoneDirs scanned o).files.load q =
        none := by
      intro q
      rcases hclear.files q with hf | hf
      · exact hf
      · rw [hf, hfiles]
    have hsclean : ∀ d, scanned.dirs.has d = true → Clean d := fun d hd => hdirs d hd ▸ hw.clean
    obtain ⟨h6, h7, h8, h9, -⟩ := insertScannedDirs_spec o hclear.exact hsclean fun d _ => hcfiles d
    have hout : idx.applyScanMaps scanned o =
        ((idx.removeGoneFiles scanned o).removeGoneDirs scanned o).insertScannedDirs scanned o := by
      rw [applyScanMaps, hskip]
    rw [← hout] at h6 h7 h8 h9
    have hblocked : ∀ q, (idx.applyScanMaps scanned o).isBlocked q = idx.isBlocked q :=
      isBlocked_congr (h8.trans (hclear.blocked.trans h3))
    have hdir : ∀ q, (idx.applyScanMaps scanned o).dirs.has q = true ↔
        scanned.dirs.has q = true := by
      intro q
      rw [h9]
      exact ⟨fun hq => hq.elim (fun hc => (hclear.dirs q hc).2) id, Or.inr⟩
    have honly : ∀ q, (idx.applyScanMaps scanned o).Indexed q → q = base := by
      rintro q (hf | hd)
      · rw [GoMap.has, h7, hcfiles] at hf
        cases hf
      · exact hdirs q ((hdir q).mp hd)
    have hrooted : Rooted (idx.applyScanMaps scanned o) base :=
      ⟨h6.toLists, (hdir base).mpr hw.baseDir, hw.clean, h6.disjoint,
        fun q _ => by rw [h7, hcfiles], fun q hq => Or.inl (honly q hq),
        fun p x _ hne hi => absurd (honly _ hi) hne⟩
    refine ⟨fun f => ?_, fun d => ?_, hrooted.visits⟩
    · rw [h7, hcfiles, hblocked]
      split_ifs with hb
      · rfl
      · have hload : scanned.files.load f = none := by
          rw [← GoMap.has_eq_false]
          by_contra hn
          exact hnone f ⟨by simpa using hn, by simpa using hb⟩
        rw [hload]
    · rw [Bool.eq_iff_iff]
      exact hdir d

end Untracked

theorem repaired_iff {idx : FileIndex} {scanned : ScanMaps} {base : Path} (h : Tidy idx)
    (hbook : Bookkept idx) (hw : scanned.WellFormed base) (o : Orders) :
    Repaired (idx.applyScanMaps scanned o) scanned base ↔ Repairable idx scanned base := by
  by_cases ht : Tracked base
  · exact repaired_iff_tracked h hbook hw ht o
  · exact repaired_iff_untracked h hbook hw ht o

/-- A path that was a file becomes a directory whose file has not changed: it is lost. -/
theorem applyScanMaps_lost :
    let info : FileInfo := { size := 1, modTime := 2 }
    let ops : List Op := [.insertFile "s/k".toList info, .insertFile "s/k/x".toList info]
    let scanned : ScanMaps :=
      { files := (∅ : GoMap Path FileInfo).store "s/k/x".toList info
        dirs := ((∅ : GoMap Path Unit).store "s".toList ()).store "s/k".toList () }
    let o : Orders := ⟨.entries, .entries, .entries, .entries⟩
    (∀ op ∈ ops, Clean op.path) ∧ scanned.WellFormed "s".toList ∧
      ¬ Repaired ((newFileIndex.run ops).applyScanMaps scanned o) scanned "s".toList := by
  intro info ops scanned o
  have hclean : ∀ op ∈ ops, Clean op.path := by decide
  have hw : scanned.WellFormed "s".toList :=
    ScanMaps.wellFormed_of_keys (by decide) (by decide) (by decide) (by decide)
  refine ⟨hclean, hw, fun hr => ?_⟩
  have hable := (repaired_iff (run_tidy ops (newFileIndex_exact _ _) hclean)
    (newFileIndex_bookkept.run ops) hw o).mp hr
  have hfile := (hable.files "s/k".toList "x".toList (by decide) ⟨by decide, by decide⟩
    ⟨{ info with revision := 2 }, info, by decide, by decide, by decide⟩).2
  exact absurd hfile (by decide)

/-- For every state that the public operations reach on clean paths, every well-formed scan and
every order of the ranges: the rebuild repairs the index exactly if the state is repairable. -/
theorem applyScanMaps_repaired_iff (ops : List Op) (hclean : ∀ op ∈ ops, Clean op.path)
    (scanned : ScanMaps) (base : Path) (hw : scanned.WellFormed base) (o : Orders) :
    Repaired ((newFileIndex.run ops).applyScanMaps scanned o) scanned base ↔
      Repairable (newFileIndex.run ops) scanned base :=
  repaired_iff (run_tidy ops (newFileIndex_exact _ _) hclean) (newFileIndex_bookkept.run ops) hw o

theorem applyScanMaps_repaired :
    let ops : List Op := [.insertDir "s".toList, .insertFile "s/old".toList {}]
    let scanned : ScanMaps :=
      { files := (∅ : GoMap Path FileInfo).store "s/new".toList { size := 1 }
        dirs := (∅ : GoMap Path Unit).store "s".toList () }
    let o : Orders := ⟨.entries, .entries, .entries, .entries⟩
    Repaired ((newFileIndex.run ops).applyScanMaps scanned o) scanned "s".toList := by
  intro ops scanned o
  have hclean : ∀ op ∈ ops, Clean op.path := by decide
  have hw : scanned.WellFormed "s".toList :=
    ScanMaps.wellFormed_of_keys (by decide) (by decide) (by decide) (by decide)
  have hgone : ∀ q ∈ (newFileIndex.run ops).files.keys, scanned.files.load q = none := by decide
  have honly : ∀ q ∈ scanned.dirs.keys, q = "s".toList := by decide
  have hslash : '/' ∉ "s".toList := by decide
  refine (applyScanMaps_repaired_iff ops hclean scanned "s".toList hw o).mpr
    ⟨Or.inl (by decide), fun p x _ _ hu => ?_, fun p x _ hne hd => ?_, fun f _ hsw => ?_⟩
  · obtain ⟨old, info, h1, h2, -⟩ := hu
    rw [hgone _ (GoMap.mem_keys_of_load h1)] at h2
    cases h2
  · exact absurd (honly _ ((GoMap.load_isSome _ _).mp hd)) hne
  · obtain ⟨p, x, he, -⟩ := hsw
    rw [he] at hslash
    exact absurd (by simp) hslash

end RenoP.Index.FileIndex
