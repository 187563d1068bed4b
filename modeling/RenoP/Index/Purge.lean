import RenoP.Index.ChildRuns

/-!
# What a purge takes away

`Pruned K a b` relates the state before and after the entries of `K` were removed: everything
shrinks, a directory that goes loses its list, and an entry that goes is in `K` or was listed in a
directory that went too.
-/

namespace RenoP.Index.FileIndex
open SlashPath

abbrev Tidy (idx : FileIndex) : Prop := Exact Set.univ Set.univ idx

theorem purgeSafe_univ (idx : FileIndex) (d : Path) : PurgeSafe Set.univ idx d :=
  fun _ _ _ _ _ hS => absurd (Set.mem_univ _) hS

theorem Exact.tidy {S T : Set Path} {idx : FileIndex} (h : Exact S T idx) : Tidy idx :=
  h.mono (Set.subset_univ S) (Set.subset_univ T)

structure Pruned (K : Set Path) (a b : FileIndex) : Prop where
  files : ∀ q, b.files.load q = none ∨ b.files.load q = a.files.load q
  dirs : ∀ q, b.dirs.has q = true → a.dirs.has q = true
  blocked : b.blocked = a.blocked
  kids : ∀ p, b.kids p ⊆ a.kids p
  dropped : ∀ q, a.dirs.has q = true → b.dirs.has q = true ∨ b.kids q = []
  reached : ∀ q, a.Indexed q → ¬ b.Indexed q → q ∈ K ∨
    ∃ p c, q = p ++ '/' :: c ∧ c ∈ a.kids p ∧ a.dirs.has p = true ∧ b.dirs.has p = false

def listedIn (idx : FileIndex) (d : Path) : Set Path := {q | ∃ c ∈ idx.kids d, q = d ++ '/' :: c}

namespace Pruned

variable {K : Set Path} {a b c : FileIndex}

theorem refl (K : Set Path) (a : FileIndex) : Pruned K a a :=
  ⟨fun _ => Or.inr rfl, fun _ h => h, rfl, fun _ => List.Subset.refl _, fun _ h => Or.inl h,
    fun _ h hn => absurd h hn⟩

theorem mono {K' : Set Path} (h : Pruned K a b) (hK : K ⊆ K') : Pruned K' a b :=
  { h with
    reached := fun q hq hn => (h.reached q hq hn).imp (fun hm => hK hm) id }

theorem dirs_false (h : Pruned K a b) {q : Path} (hq : a.dirs.has q = false) :
    b.dirs.has q = false := by
  by_contra hn
  rw [h.dirs q (by simpa using hn)] at hq
  cases hq

theorem trans (h : Pruned K a b) (h' : Pruned K b c) : Pruned K a c := by
  refine ⟨fun q => ?_, fun q hq => h.dirs q (h'.dirs q hq), h'.blocked.trans h.blocked,
    fun p => List.Subset.trans (h'.kids p) (h.kids p), fun q hq => ?_, fun q hq hn => ?_⟩
  · rcases h'.files q with h1 | h1
    · exact Or.inl h1
    · rw [h1]
      exact h.files q
  · rcases h.dropped q hq with h1 | h1
    · exact h'.dropped q h1
    · exact Or.inr (List.subset_nil.mp (h1 ▸ h'.kids q))
  · by_cases hb : b.Indexed q
    · rcases h'.reached q hb hn with hK | ⟨p, x, he, hx, hpb, hpc⟩
      · exact Or.inl hK
      · exact Or.inr ⟨p, x, he, h.kids p hx, h.dirs p hpb, hpc⟩
    · rcases h.reached q hq hb with hK | ⟨p, x, he, hx, hpa, hpb⟩
      · exact Or.inl hK
      · exact Or.inr ⟨p, x, he, hx, hpa, h'.dirs_false hpb⟩

theorem below (h : Pruned K a b) : Below b a := by
  refine ⟨fun q hq => ?_, h.dirs⟩
  rcases h.files q with hf | hf
  · rw [GoMap.has, hf] at hq
    cases hq
  · rw [GoMap.has, hf] at hq
    exact hq

section Frame

variable {g : Path} (h : Pruned K a b) (hK : ∀ q ∈ K, q = g ∨ Under g q)
  (hdis : ∀ q, a.dirs.has q = true → a.files.load q = none)
include h hK hdis

theorem under (n : ℕ) : ∀ q, q.length ≤ n → a.Indexed q → ¬ b.Indexed q → q = g ∨ Under g q := by
  induction n with
  | zero =>
    intro q hlen hq hn
    rcases h.reached q hq hn with hm | ⟨p, c, rfl, -⟩
    · exact hK q hm
    · simp at hlen
  | succ n ih =>
    intro q hlen hq hn
    rcases h.reached q hq hn with hm | ⟨p, c, rfl, -, hpa, hpb⟩
    · exact hK q hm
    · have hpn : ¬ b.Indexed p := by
        rintro (hf | hd)
        · have hf' := h.below.files p hf
          rw [GoMap.has, hdis p hpa] at hf'
          cases hf'
        · rw [hpb] at hd
          cases hd
      have hlen' : p.length ≤ n := by
        rw [List.length_append, List.length_cons] at hlen
        omega
      have hpc : Under p (p ++ '/' :: c) := under_iff.mpr ⟨c, rfl⟩
      rcases ih p hlen' (Or.inr hpa) hpn with rfl | hu
      · exact Or.inr hpc
      · exact Or.inr (hu.trans hpc)

theorem kept {q : Path} (hne : q ≠ g) (hu : ¬ Under g q) :
    b.files.load q = a.files.load q ∧ b.dirs.has q = a.dirs.has q := by
  have hiff : a.Indexed q → b.Indexed q := by
    intro hq
    by_contra hn
    rcases h.under hK hdis q.length q le_rfl hq hn with he | he
    · exact hne he
    · exact hu he
  constructor
  · rcases h.files q with hf | hf
    · rw [hf]
      by_contra hn
      obtain ⟨info, hinfo⟩ := Option.ne_none_iff_exists'.mp (Ne.symm hn)
      rcases hiff (Or.inl ((GoMap.has_eq_true _ _).mpr ⟨info, hinfo⟩)) with hb | hb
      · rw [GoMap.has, hf] at hb
        cases hb
      · rw [hdis q (h.dirs q hb)] at hinfo
        cases hinfo
    · exact hf
  · rw [Bool.eq_iff_iff]
    refine ⟨h.dirs q, fun hd => ?_⟩
    rcases hiff (Or.inr hd) with hb | hb
    · have hb' := h.below.files q hb
      rw [GoMap.has, hdis q hd] at hb'
      cases hb'
    · exact hb

end Frame

end Pruned

theorem kids_removeChild_subset (idx : FileIndex) (q p : Path) :
    (idx.removeChild q).kids p ⊆ idx.kids p :=
  (kids_removeChild_sublist idx q p).subset

theorem kids_removeChild_self (idx : FileIndex) (q : Path) : (idx.removeChild q).kids q = [] := by
  rw [kids_removeChild idx rfl q, if_pos rfl]

theorem dropFile_pruned {K : Set Path} (idx : FileIndex) {x : Path} (hx : x ∈ K) :
    Pruned K idx (idx.dropFile x) := by
  have hkids : ∀ p, (idx.dropFile x).kids p ⊆ idx.kids p := by
    intro p
    cases hl : idx.files.load x with
    | none =>
      rw [dropFile_absent hl]
      exact List.Subset.refl _
    | some old =>
      rw [dropFile_present hl]
      exact kids_removeChild_subset _ x p
  refine ⟨fun q => ?_, fun q hq => by rwa [dropFile_dirs] at hq, dropFile_blocked idx x, hkids,
    fun q hq => Or.inl (by rwa [dropFile_dirs]), fun q hq hn => ?_⟩
  · rw [dropFile_load]
    split_ifs
    · exact Or.inl rfl
    · exact Or.inr rfl
  · have hqx : q = x := by
      by_contra hne
      apply hn
      unfold Indexed
      rw [dropFile_has, if_neg hne, dropFile_dirs]
      exact hq
    rw [hqx]
    exact Or.inl hx

theorem dropDir_pruned {K : Set Path} {idx mid : FileIndex} {x : Path}
    (hdir : idx.dirs.has x = true) (hx : x ∈ K)
    (h : Pruned (idx.listedIn x) (idx.dropDir x) mid) : Pruned K idx (mid.removeChild x) := by
  have hgone : mid.dirs.has x = false := h.dirs_false (by rw [dropDir_has, if_pos rfl])
  refine ⟨h.files, fun q hq => (dropDir_below idx x).dirs q (h.dirs q hq), h.blocked,
    fun p => List.Subset.trans (kids_removeChild_subset mid x p) (h.kids p), fun q hq => ?_,
    fun q hq hn => ?_⟩
  · by_cases hqx : q = x
    · rw [hqx]
      exact Or.inr (kids_removeChild_self mid x)
    · rcases h.dropped q (by rw [dropDir_has, if_neg hqx]; exact hq) with h1 | h1
      · exact Or.inl h1
      · exact Or.inr (List.subset_nil.mp (h1 ▸ kids_removeChild_subset mid x q))
  · by_cases hqx : q = x
    · rw [hqx]
      exact Or.inl hx
    · have hq' : (idx.dropDir x).Indexed q := by
        refine hq.imp id fun hd => ?_
        rw [dropDir_has, if_neg hqx]
        exact hd
      rcases h.reached q hq' hn with ⟨c, hc, he⟩ | ⟨p, c, he, hc, hpa, hpb⟩
      · exact Or.inr ⟨x, c, he, hc, hdir, hgone⟩
      · exact Or.inr ⟨p, c, he, hc, (dropDir_below idx x).dirs p hpa, hpb⟩

theorem removeDescendant_tidy (fuel : ℕ) {idx : FileIndex} {d c : Path} (h : Tidy idx)
    (hd : Tracked d) (hc : '/' ∉ c) (hsize : idx.dirs.size ≤ fuel) :
    Tidy (removeDescendant (removeDescendantsFuel fuel) d idx c) :=
  (h.removeDescendant hd hc (purgeSafe_univ idx d) (removeDescendantsFuel_below fuel)
    fun i hi hclean hsafe hex => by
      obtain ⟨h1, -⟩ := removeDescendantsFuel_exact fuel (by omega) hclean hsafe hex
      exact ⟨h1, fun _ _ hS => absurd (Set.mem_univ _) hS⟩).1

theorem Tidy.dropDir {idx : FileIndex} (h : Tidy idx) (x : Path) : Tidy (idx.dropDir x) :=
  (Exact.dropDir h x).mono (Set.Subset.refl _) (Set.subset_univ _)

theorem removeDescendantsFuel_pruned (fuel : ℕ) : ∀ {idx : FileIndex} {d : Path},
    idx.dirs.size < fuel → Clean d → Tidy idx →
    Pruned (idx.listedIn d) idx (removeDescendantsFuel fuel idx d) := by
  induction fuel with
  | zero => exact fun h => absurd h (Nat.not_lt_zero _)
  | succ fuel ih =>
    intro idx d hsize hclean htidy
    have hturn : ∀ (i : FileIndex) (c : Path), Tidy i → i.dirs.size ≤ idx.dirs.size →
        c ∈ idx.kids d → Pruned (idx.listedIn d) i
          (FileIndex.removeDescendant (removeDescendantsFuel fuel) d i c) := by
      intro i c hi hsz hc
      have hroot : d ++ '/' :: c ∈ idx.listedIn d := ⟨c, hc, rfl⟩
      unfold FileIndex.removeDescendant
      dsimp only
      by_cases hdir : i.dirs.has (d ++ '/' :: c) = true
      · have hno : i.dropFile (d ++ '/' :: c) = i := dropFile_absent (hi.disjoint _ hdir)
        have hs := dropDir_size hdir
        rw [hno, if_pos hdir]
        exact dropDir_pruned hdir hroot
          (ih (by omega) (hi.clean _ (Or.inr hdir)) (Tidy.dropDir hi _))
      · rw [dropFile_dirs, if_neg hdir]
        exact dropFile_pruned i hroot
    have hloop : ∀ (l : List Path) (i : FileIndex), Tidy i → i.dirs.size ≤ idx.dirs.size →
        (∀ c ∈ l, c ∈ idx.kids d) → Pruned (idx.listedIn d) i
          (l.foldl (FileIndex.removeDescendant (removeDescendantsFuel fuel) d) i) := by
      intro l
      induction l with
      | nil => exact fun i _ _ _ => Pruned.refl _ i
      | cons c l ihl =>
        intro i hi hsz hlisted
        have hcl := hlisted c (List.mem_cons_self ..)
        obtain ⟨hd, hc⟩ := htidy.plain d c hcl
        exact (hturn i c hi hsz hcl).trans (ihl _
          (removeDescendant_tidy fuel hi hd hc (by omega)) ((dirs_size_le rfl).trans hsz)
          fun e he => hlisted e (List.mem_cons_of_mem _ he))
    have hdef : removeDescendantsFuel (fuel + 1) idx d =
        (idx.kids d).foldl (FileIndex.removeDescendant (removeDescendantsFuel fuel) d) idx := by
      rw [removeDescendantsFuel, hclean, getChildren_clean idx hclean]
    rw [hdef]
    exact hloop (idx.kids d) idx htidy le_rfl fun c hc => hc

theorem removeDescendants_pruned {idx : FileIndex} {d : Path} (hclean : Clean d) (h : Tidy idx) :
    Pruned (idx.listedIn d) idx (idx.removeDescendants d) :=
  removeDescendantsFuel_pruned _ (Nat.lt_succ_self _) hclean h

theorem Pruned.congr {K : Set Path} {a b c : FileIndex} (h : Pruned K a b)
    (hf : c.files = b.files) (hd : c.dirs = b.dirs) (hk : c.children = b.children)
    (hb : c.blocked = b.blocked) : Pruned K a c := by
  have hi : c.Indexed = b.Indexed := by
    unfold Indexed
    rw [hf, hd]
  exact ⟨by rw [hf]; exact h.files, by rw [hd]; exact h.dirs, hb.trans h.blocked,
    by rw [kids_congr hk]; exact h.kids, by rw [hd, kids_congr hk]; exact h.dropped,
    by rw [hi, hd]; exact h.reached⟩

theorem removeDir_pruned {idx : FileIndex} {k : Path} (hclean : Clean k) (h : Tidy idx) :
    Pruned (insert k (idx.listedIn k)) idx (idx.removeDir k) ∧
      (idx.removeDir k).dirs.has k = false := by
  have hp := (removeDescendants_pruned hclean h).mono (Set.subset_insert k (idx.listedIn k))
  have htidy := (h.removeDescendants hclean (purgeSafe_univ idx k)).1
  unfold FileIndex.removeDir
  dsimp only
  by_cases hd : (idx.removeDescendants k).dirs.has k = true
  · rw [if_pos hd]
    constructor
    · refine hp.trans (Pruned.congr (dropDir_pruned hd (Set.mem_insert _ _)
        (Pruned.refl _ _)) rfl rfl rfl rfl)
    · rw [removeChild_dirs]
      exact (dropDir_has _ k k).trans (if_pos rfl)
  · rw [if_neg hd]
    refine ⟨hp.trans ⟨fun _ => Or.inr rfl, fun _ hq => hq, rfl,
      fun p => kids_removeChild_subset _ k p, fun q hq => Or.inl hq,
      fun q hq hn => absurd hq hn⟩, ?_⟩
    rw [removeChild_dirs]
    simpa using hd

theorem putFile_stored {idx : FileIndex} {p : Path} (info : FileInfo) (hclean : Clean p)
    (h : Tidy idx) (hb : idx.isBlocked p = false) :
    ∃ mid info', Pruned (insert p (idx.listedIn p)) idx mid ∧ mid.dirs.has p = false ∧
      sameFileMetadata info' info = true ∧
      (∀ q, (idx.putFile p info).files.load q = if q = p then some info' else mid.files.load q) ∧
      (idx.putFile p info).dirs = mid.dirs ∧ (idx.putFile p info).blocked = idx.blocked ∧
      ∀ r c, c ∈ (idx.putFile p info).kids r → c ∈ mid.kids r ∨ p = r ++ '/' :: c := by
  have hstore : ∀ mid : FileIndex, mid.blocked = idx.blocked → ∀ info' a,
      a.files = mid.files.store p info' → a.dirs = mid.dirs → a.blocked = mid.blocked →
      a.children = mid.children →
      (∀ q, (FileIndex.addChild a p).files.load q = if q = p then some info' else mid.files.load q) ∧
      (FileIndex.addChild a p).dirs = mid.dirs ∧ (FileIndex.addChild a p).blocked = idx.blocked ∧
      ∀ r c, c ∈ (FileIndex.addChild a p).kids r → c ∈ mid.kids r ∨ p = r ++ '/' :: c := by
    intro mid hmid info' a hf hd hbl hc
    refine ⟨fun q => ?_, ?_, ?_, fun r c hm => ?_⟩
    · rw [addChild_files, hf, GoMap.load_store]
    · rw [addChild_dirs, hd]
    · rw [addChild_blocked, hbl, hmid]
    · rw [← kids_congr hc]
      exact kids_addChild_imp a p hm
  have hsame : sameFileMetadata { info with revision := idx.fileRevision + 1 } info = true := by
    simp [sameFileMetadata]
  unfold FileIndex.putFile
  rw [if_neg (by rw [hb]; decide)]
  dsimp only
  generalize { info with revision := idx.fileRevision + 1 } = info' at hsame ⊢
  have hrev : Tidy { idx with fileRevision := idx.fileRevision + 1 } := h.congr rfl rfl rfl
  by_cases hd : idx.dirs.has p = true
  · rw [if_pos hd]
    have hpr : Pruned (insert p (idx.listedIn p)) { idx with fileRevision := idx.fileRevision + 1 }
        ((({ idx with fileRevision := idx.fileRevision + 1 } : FileIndex).dropDir p
          |>.removeDescendants p).removeChild p) :=
      dropDir_pruned hd (Set.mem_insert _ _)
        (removeDescendants_pruned hclean (Tidy.dropDir hrev p))
    have hpr' : Pruned (insert p (idx.listedIn p)) idx
        ((({ idx with fileRevision := idx.fileRevision + 1 } : FileIndex).dropDir p
          |>.removeDescendants p).removeChild p) :=
      ⟨hpr.files, hpr.dirs, hpr.blocked, hpr.kids, hpr.dropped, hpr.reached⟩
    have hgone := (hrev.replaceDir hclean hd (purgeSafe_univ _ p)).2
    refine ⟨_, info', hpr', hgone, hsame, ?_⟩
    split <;> exact hstore _ hpr'.blocked info' _ rfl rfl rfl rfl
  · rw [if_neg hd]
    have hpr : Pruned (insert p (idx.listedIn p)) idx
        { idx with fileRevision := idx.fileRevision + 1 } :=
      Pruned.congr (Pruned.refl _ idx) rfl rfl rfl rfl
    refine ⟨_, info', hpr, by simpa using hd, hsame, ?_⟩
    split <;> exact hstore _ rfl info' _ rfl rfl rfl rfl

theorem insertFile_load_kept {idx : FileIndex} {p q : Path} (info : FileInfo) (hclean : Clean p)
    (h : Tidy idx) (hne : q ≠ p) (hu : ¬Under p q) :
    (idx.insertFile p info).files.load q = idx.files.load q := by
  unfold FileIndex.insertFile
  by_cases hb : idx.isBlocked p = true
  · rw [if_pos hb]
  rw [if_neg hb]
  obtain ⟨mid, info', hpruned, -, -, hload, -⟩ :=
    putFile_stored info hclean h (Bool.not_eq_true _ ▸ hb)
  rw [hload q, if_neg hne]
  refine (hpruned.kept (fun x hx => ?_) h.disjoint hne hu).1
  rcases hx with rfl | ⟨c, -, rfl⟩
  · exact Or.inl rfl
  · exact Or.inr (SlashPath.under_iff.mpr ⟨c, rfl⟩)

end RenoP.Index.FileIndex
