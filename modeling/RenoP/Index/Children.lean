import RenoP.Index.Bookkeeping
import Mathlib.Data.Set.Insert

/-!
# The child lists of the index

`Exact S T` says that the lists have no duplicates and name clean paths below tracked parents, that
they name every indexed entry but those of `S`, and that what they name is indexed but for `T`.
`removeChild` also drops the list of the removed path itself (models.go:298), so a file with entries
below it must not be removed.
-/

namespace RenoP.Index.FileIndex
open SlashPath

def kids (idx : FileIndex) (p : Path) : List Path := (idx.children.load p).getD []

def Indexed (idx : FileIndex) (q : Path) : Prop := idx.files.has q = true ∨ idx.dirs.has q = true

instance (idx : FileIndex) (q : Path) : Decidable (idx.Indexed q) :=
  inferInstanceAs (Decidable (_ ∨ _))

theorem getChildren_clean (idx : FileIndex) {p : Path} (h : Clean p) :
    idx.getChildren p = idx.kids p := by
  unfold getChildren kids
  rw [h]

theorem split_child {p b : Path} (hb : '/' ∉ b) (hp : p ≠ []) :
    splitPathParentBase (p ++ '/' :: b) = (p, b) := by
  unfold splitPathParentBase
  rw [cutLast_append hb]
  cases p with
  | nil => exact absurd rfl hp
  | cons c cs => rfl

theorem split_tracked {q p b : Path} (h : splitPathParentBase q = (p, b)) (hp : Tracked p) :
    q = p ++ '/' :: b ∧ '/' ∉ b := by
  unfold splitPathParentBase at h
  cases hc : cutLast q with
  | none =>
    rw [hc] at h
    obtain ⟨rfl, -⟩ := Prod.mk.inj h
    exact absurd rfl hp.2.2
  | some ab =>
    obtain ⟨a, c⟩ := ab
    rw [hc] at h
    cases a with
    | nil =>
      obtain ⟨rfl, -⟩ := Prod.mk.inj h
      exact absurd rfl hp.2.1
    | cons x xs =>
      obtain ⟨rfl, rfl⟩ := Prod.mk.inj h
      exact cutLast_eq_some.mp hc

theorem child_ne_parent (p b : Path) : p ++ '/' :: b ≠ p := by
  intro h
  have := congrArg List.length h
  simp at this

theorem tracked_child {p b : Path} (h : Tracked p) : Tracked (p ++ '/' :: b) := by
  obtain ⟨hd, hs, he⟩ := h
  obtain ⟨c, cs, rfl⟩ := List.exists_cons_of_ne_nil he
  refine ⟨?_, ?_, by simp⟩
  · intro h
    have := congrArg List.length h
    simp [dot] at this
  · intro h
    have := congrArg List.length h
    simp at this

structure Lists (idx : FileIndex) : Prop where
  nodup : ∀ p, (idx.kids p).Nodup
  plain : ∀ p, ∀ b ∈ idx.kids p, Tracked p ∧ '/' ∉ b
  cleanPath : ∀ p, ∀ b ∈ idx.kids p, Clean (p ++ '/' :: b)

theorem addChild_eq {q p b : Path} (idx : FileIndex) (hq : splitPathParentBase q = (p, b)) :
    idx.addChild q = if Tracked p ∧ b ∉ idx.kids p then
      { idx with children := idx.children.store p (idx.kids p ++ [b]) } else idx := by
  unfold addChild
  rw [hq]
  dsimp only
  by_cases ht : Tracked p
  · obtain ⟨rfl, -⟩ := split_tracked hq ht
    have hne : ¬ (p = p ++ '/' :: b ∨ ¬ Tracked p) := by
      rintro (he | hn)
      · exact child_ne_parent p b he.symm
      · exact hn ht
    rw [if_neg hne]
    by_cases hb : b ∈ idx.kids p
    · rw [if_pos (by exact hb), if_neg fun h => h.2 hb]
    · rw [if_neg (by exact hb), if_pos ⟨ht, hb⟩]
      rfl
  · rw [if_pos (Or.inr ht), if_neg fun h => ht h.1]

theorem kids_store (idx : FileIndex) (p q : Path) (l : List Path) :
    kids { idx with children := idx.children.store p l } q = if q = p then l else idx.kids q := by
  unfold kids
  rw [GoMap.load_store]
  split_ifs <;> rfl

theorem mem_kids_addChild (idx : FileIndex) (q : Path) {p b : Path} (hp : Tracked p)
    (hb : '/' ∉ b) : b ∈ (idx.addChild q).kids p ↔ b ∈ idx.kids p ∨ q = p ++ '/' :: b := by
  obtain ⟨p', b', hq⟩ : ∃ p' b', splitPathParentBase q = (p', b') := ⟨_, _, rfl⟩
  have hsplit : q = p ++ '/' :: b ↔ p' = p ∧ b' = b := by
    constructor
    · rintro rfl
      rw [split_child hb hp.2.2] at hq
      exact ⟨(Prod.mk.inj hq).1.symm, (Prod.mk.inj hq).2.symm⟩
    · rintro ⟨rfl, rfl⟩
      exact (split_tracked hq hp).1
  rw [addChild_eq idx hq, hsplit]
  split_ifs with h
  · rw [kids_store]
    by_cases hpp : p = p'
    · subst hpp
      simp [eq_comm]
    · rw [if_neg hpp]
      simp [Ne.symm hpp]
  · constructor
    · exact Or.inl
    · rintro (hm | ⟨rfl, rfl⟩)
      · exact hm
      · by_contra hn
        exact h ⟨hp, hn⟩

theorem kids_addChild_imp (idx : FileIndex) (q : Path) {p b : Path}
    (h : b ∈ (idx.addChild q).kids p) : b ∈ idx.kids p ∨ q = p ++ '/' :: b := by
  obtain ⟨p', b', hq⟩ : ∃ p' b', splitPathParentBase q = (p', b') := ⟨_, _, rfl⟩
  rw [addChild_eq idx hq] at h
  split_ifs at h with hn
  · rw [kids_store] at h
    split_ifs at h with hp
    · rcases List.mem_append.mp h with hb | hb
      · exact Or.inl (hp ▸ hb)
      · rw [List.mem_singleton] at hb
        rw [hp, hb]
        exact Or.inr (split_tracked hq hn.1).1
    · exact Or.inl h
  · exact Or.inl h

theorem Lists.addChild {idx : FileIndex} (h : Lists idx) {q : Path} (hclean : Clean q) :
    Lists (idx.addChild q) := by
  obtain ⟨p', b', hq⟩ : ∃ p' b', splitPathParentBase q = (p', b') := ⟨_, _, rfl⟩
  rw [addChild_eq idx hq]
  split_ifs with hn
  · obtain ⟨rfl, hplain⟩ := split_tracked hq hn.1
    refine ⟨fun p => ?_, fun p b hb => ?_, fun p b hb => ?_⟩
    · rw [kids_store]
      split_ifs
      · rw [← List.concat_eq_append]
        exact (h.nodup p').concat hn.2
      · exact h.nodup p
    · rw [kids_store] at hb
      split_ifs at hb with hp
      · rcases List.mem_append.mp hb with hb | hb
        · exact hp ▸ h.plain p' b hb
        · rw [List.mem_singleton] at hb
          exact hp ▸ ⟨hn.1, hb ▸ hplain⟩
      · exact h.plain p b hb
    · rw [kids_store] at hb
      split_ifs at hb with hp
      · rcases List.mem_append.mp hb with hb | hb
        · exact hp ▸ h.cleanPath p' b hb
        · rw [List.mem_singleton] at hb
          rw [hp, hb]
          exact hclean
      · exact h.cleanPath p b hb
  · exact h

theorem kids_removeChild {q p' b' : Path} (idx : FileIndex)
    (hq : splitPathParentBase q = (p', b')) (p : Path) :
    (idx.removeChild q).kids p =
      if p = q then [] else if p = p' then (idx.kids p).erase b' else idx.kids p := by
  unfold removeChild kids
  rw [hq]
  dsimp only
  rw [GoMap.load_delete]
  by_cases hpq : p = q
  · rw [if_pos hpq, if_pos hpq]
    rfl
  rw [if_neg hpq, if_neg hpq]
  cases hl : idx.children.load p' with
  | none =>
    dsimp only
    split_ifs with hpp
    · rw [hpp, hl]
      rfl
    · rfl
  | some l =>
    dsimp only
    by_cases hpp : p = p'
    · rw [if_pos hpp, hpp, hl, Option.getD_some]
      by_cases he : l.erase b' = []
      · rw [if_pos he, GoMap.load_delete_self, he]
        rfl
      · rw [if_neg he, GoMap.load_store_self]
        rfl
    · rw [if_neg hpp]
      split_ifs
      · rw [GoMap.load_delete_ne _ hpp]
      · rw [GoMap.load_store_ne _ _ hpp]

theorem kids_removeChild_sublist (idx : FileIndex) (q p : Path) :
    ((idx.removeChild q).kids p).Sublist (idx.kids p) := by
  rw [kids_removeChild idx rfl p]
  split_ifs
  · exact List.nil_sublist _
  · exact List.erase_sublist
  · exact List.Sublist.refl _

theorem Lists.removeChild {idx : FileIndex} (h : Lists idx) (q : Path) :
    Lists (idx.removeChild q) where
  nodup p := (kids_removeChild_sublist idx q p).nodup (h.nodup p)
  plain p b hb := h.plain p b ((kids_removeChild_sublist idx q p).subset hb)
  cleanPath p b hb := h.cleanPath p b ((kids_removeChild_sublist idx q p).subset hb)

theorem Lists.mem_kids_removeChild {idx : FileIndex} (h : Lists idx) (q : Path) {p b : Path}
    (hp : Tracked p) (hb : '/' ∉ b) :
    b ∈ (idx.removeChild q).kids p ↔ p ≠ q ∧ q ≠ p ++ '/' :: b ∧ b ∈ idx.kids p := by
  obtain ⟨p', b', hq⟩ : ∃ p' b', splitPathParentBase q = (p', b') := ⟨_, _, rfl⟩
  rw [kids_removeChild idx hq]
  by_cases hpq : p = q
  · simp [hpq]
  rw [if_neg hpq]
  by_cases hpp : p = p'
  · subst hpp
    obtain ⟨rfl, -⟩ := split_tracked hq hp
    rw [if_pos rfl, (h.nodup p).mem_erase_iff]
    simp [hpq, eq_comm]
  · rw [if_neg hpp]
    have hne : q ≠ p ++ '/' :: b := by
      rintro rfl
      rw [split_child hb hp.2.2] at hq
      exact hpp (Prod.mk.inj hq).1
    simp [hpq, hne]

/-- `S`: entries that may be missing from the lists. `T`: entries that may be listed though
nothing stands at their path. -/
structure Exact (S T : Set Path) (idx : FileIndex) : Prop extends Lists idx where
  clean : ∀ q, idx.Indexed q → Clean q
  disjoint : ∀ q, idx.dirs.has q = true → idx.files.load q = none
  complete : ∀ p b, Tracked p → '/' ∉ b → p ++ '/' :: b ∉ S → idx.Indexed (p ++ '/' :: b) →
    b ∈ idx.kids p
  fresh : ∀ p b, b ∈ idx.kids p → p ++ '/' :: b ∉ T → idx.Indexed (p ++ '/' :: b)

theorem newFileIndex_not_indexed (q : Path) : ¬ newFileIndex.Indexed q := by
  rintro (h | h) <;> exact absurd h Bool.false_ne_true

theorem newFileIndex_exact (S T : Set Path) : Exact S T newFileIndex where
  nodup _ := List.nodup_nil
  plain _ _ hb := absurd hb List.not_mem_nil
  cleanPath _ _ hb := absurd hb List.not_mem_nil
  clean q h := absurd h (newFileIndex_not_indexed q)
  disjoint _ _ := rfl
  complete _ _ _ _ _ h := absurd h (newFileIndex_not_indexed _)
  fresh _ _ hb := absurd hb List.not_mem_nil

theorem Exact.mono {S S' T T' : Set Path} {idx : FileIndex} (h : Exact S T idx) (hS : S ⊆ S')
    (hT : T ⊆ T') : Exact S' T' idx :=
  { h with
    complete := fun p b hp hb hn => h.complete p b hp hb fun hm => hn (hS hm)
    fresh := fun p b hb hn => h.fresh p b hb fun hm => hn (hT hm) }

theorem Exact.congr {S T : Set Path} {a b : FileIndex} (h : Exact S T b) (hf : a.files = b.files)
    (hd : a.dirs = b.dirs) (hc : a.children = b.children) : Exact S T a := by
  have hk : a.kids = b.kids := by
    unfold kids
    rw [hc]
  have hi : a.Indexed = b.Indexed := by
    unfold Indexed
    rw [hf, hd]
  exact ⟨⟨hk ▸ h.nodup, hk ▸ h.plain, hk ▸ h.cleanPath⟩, hi ▸ h.clean,
    by rw [hf, hd]; exact h.disjoint, by rw [hk, hi]; exact h.complete,
    by rw [hk, hi]; exact h.fresh⟩

section OneEntry

variable {S T : Set Path} {a b idx : FileIndex} {q : Path}

theorem kids_congr (hc : a.children = b.children) : a.kids = b.kids := by
  unfold kids
  rw [hc]

theorem Exact.grow (h : Exact S T b) (hc : a.children = b.children)
    (hold : ∀ r, r ≠ q → a.Indexed r → b.Indexed r) (hkeep : ∀ r, b.Indexed r → a.Indexed r)
    (hclean : Clean q) (hdisjoint : ∀ r, a.dirs.has r = true → a.files.load r = none) :
    Exact (insert q S) T a := by
  have hk := kids_congr hc
  refine ⟨⟨hk ▸ h.nodup, hk ▸ h.plain, hk ▸ h.cleanPath⟩, fun r hr => ?_, hdisjoint,
    fun p c hp hcs hS hi => ?_, fun p c hm hT => ?_⟩
  · by_cases hrq : r = q
    · exact hrq ▸ hclean
    · exact h.clean r (hold r hrq hr)
  · rw [Set.mem_insert_iff, not_or] at hS
    rw [hk]
    exact h.complete p c hp hcs hS.2 (hold _ hS.1 hi)
  · rw [hk] at hm
    exact hkeep _ (h.fresh p c hm hT)

theorem Exact.shrink (h : Exact S T b) (hc : a.children = b.children)
    (hold : ∀ r, a.Indexed r → b.Indexed r) (hkeep : ∀ r, r ≠ q → b.Indexed r → a.Indexed r)
    (hdisjoint : ∀ r, a.dirs.has r = true → a.files.load r = none) : Exact S (insert q T) a := by
  have hk := kids_congr hc
  refine ⟨⟨hk ▸ h.nodup, hk ▸ h.plain, hk ▸ h.cleanPath⟩, fun r hr => h.clean r (hold r hr),
    hdisjoint, fun p c hp hcs hS hi => ?_, fun p c hm hT => ?_⟩
  · rw [hk]
    exact h.complete p c hp hcs hS (hold _ hi)
  · rw [Set.mem_insert_iff, not_or] at hT
    rw [hk] at hm
    exact hkeep _ hT.1 (h.fresh p c hm hT.2)

theorem Exact.addChild (h : Exact (insert q S) T idx) (hq : idx.Indexed q) :
    Exact S T (idx.addChild q) := by
  have hi : (idx.addChild q).Indexed = idx.Indexed := by
    unfold Indexed
    rw [addChild_files, addChild_dirs]
  refine ⟨h.toLists.addChild (h.clean q hq), hi ▸ h.clean, ?_, fun p b hp hb hS hin => ?_,
    fun p b hm hT => ?_⟩
  · rw [addChild_files, addChild_dirs]
    exact h.disjoint
  · rw [mem_kids_addChild idx q hp hb]
    by_cases hpb : p ++ '/' :: b = q
    · exact Or.inr hpb.symm
    · rw [hi] at hin
      refine Or.inl (h.complete p b hp hb ?_ hin)
      rw [Set.mem_insert_iff, not_or]
      exact ⟨hpb, hS⟩
  · have hl := (h.toLists.addChild (h.clean q hq)).plain p b hm
    rw [mem_kids_addChild idx q hl.1 hl.2] at hm
    rw [hi]
    rcases hm with hm | rfl
    · exact h.fresh p b hm hT
    · exact hq

theorem Exact.removeChild (h : Exact S (insert q T) idx) (hq : q ∉ S → ¬ idx.Indexed q)
    (hbelow : ∀ b, Tracked q → '/' ∉ b → q ++ '/' :: b ∉ S → ¬ idx.Indexed (q ++ '/' :: b)) :
    Exact S T (idx.removeChild q) := by
  refine ⟨h.toLists.removeChild q, h.clean, h.disjoint, fun p b hp hb hS hi => ?_,
    fun p b hm hT => ?_⟩
  · rw [h.toLists.mem_kids_removeChild q hp hb]
    refine ⟨?_, ?_, h.complete p b hp hb hS hi⟩
    · rintro rfl
      exact hbelow b hp hb hS hi
    · rintro rfl
      exact hq hS hi
  · have hl := (h.toLists.removeChild q).plain p b hm
    rw [h.toLists.mem_kids_removeChild q hl.1 hl.2] at hm
    refine h.fresh p b hm.2.2 ?_
    rw [Set.mem_insert_iff, not_or]
    exact ⟨Ne.symm hm.2.1, hT⟩

end OneEntry

theorem dropDir_has (idx : FileIndex) (q r : Path) :
    (idx.dropDir q).dirs.has r = if r = q then false else idx.dirs.has r := by
  unfold GoMap.has
  rw [dropDir_dirs, GoMap.load_delete]
  split_ifs <;> rfl

theorem dropFile_has (idx : FileIndex) (q r : Path) :
    (idx.dropFile q).files.has r = if r = q then false else idx.files.has r := by
  unfold GoMap.has
  rw [dropFile_load]
  split_ifs <;> rfl

theorem Exact.dropDir {S T : Set Path} {idx : FileIndex} (h : Exact S T idx) (q : Path) :
    Exact S (insert q T) (idx.dropDir q) := by
  have hsub : ∀ r, (idx.dropDir q).dirs.has r = true → idx.dirs.has r = true := by
    intro r hr
    rw [dropDir_has] at hr
    split_ifs at hr
    exact hr
  refine h.shrink rfl (fun r hr => hr.imp id (hsub r)) (fun r hr hi => hi.imp id fun hd => ?_)
    fun r hr => h.disjoint r (hsub r hr)
  rw [dropDir_has, if_neg hr]
  exact hd

theorem Exact.dropFile {S T : Set Path} {idx : FileIndex} (h : Exact S T idx) (q : Path)
    (hbelow : idx.files.has q = true → ∀ b, Tracked q → '/' ∉ b → q ++ '/' :: b ∉ S →
      ¬ idx.Indexed (q ++ '/' :: b)) : Exact S T (idx.dropFile q) := by
  cases hl : idx.files.load q with
  | none =>
    rw [dropFile_absent hl]
    exact h
  | some old =>
    have hq : idx.files.has q = true := (GoMap.has_eq_true _ _).mpr ⟨old, hl⟩
    have hfiles : ∀ r, (idx.files.delete q).has r = if r = q then false else idx.files.has r := by
      intro r
      unfold GoMap.has
      rw [GoMap.load_delete]
      split_ifs <;> rfl
    have hdir : idx.dirs.has q = false := by
      by_contra hd
      rw [h.disjoint q (by simpa using hd)] at hl
      cases hl
    rw [dropFile_present hl]
    refine Exact.congr (b := FileIndex.removeChild { idx with files := idx.files.delete q } q) ?_
      rfl rfl rfl
    have hsub : ∀ r, FileIndex.Indexed { idx with files := idx.files.delete q } r →
        idx.Indexed r := by
      intro r hr
      refine hr.imp (fun hf => ?_) id
      dsimp only at hf
      rw [hfiles] at hf
      split_ifs at hf
      exact hf
    have hshrink : Exact S (insert q T) { idx with files := idx.files.delete q } := by
      refine h.shrink rfl hsub (fun r hr hi => ?_) fun r hr => ?_
      · unfold Indexed at hi ⊢
        dsimp only
        rw [hfiles, if_neg hr]
        exact hi
      · dsimp only at hr ⊢
        rw [GoMap.load_delete, h.disjoint r hr, ite_self]
    refine hshrink.removeChild (fun _ => ?_) fun b ht hb hS hi => hbelow hq b ht hb hS (hsub _ hi)
    unfold Indexed
    dsimp only
    rw [hfiles, if_pos rfl, hdir]
    simp

end RenoP.Index.FileIndex
