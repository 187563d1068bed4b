import RenoP.Lib.GoMap
import Mathlib.Data.List.Induction

/-!
# Rows grouped in a map

`gather` puts the rows of a list into a map one by one. The entry of a key depends on its own rows
only, in their order. `leading` is a range that begins with one key.
-/

namespace GoMap

variable {A K V : Type} [DecidableEq K]

def gather (key : A → K) (step : Option V → A → V) (rows : List A) : GoMap K V :=
  rows.foldl (fun m row => m.store (key row) (step (m.load (key row)) row)) ∅

def gathered (step : Option V → A → V) (rows : List A) : Option V :=
  rows.foldl (fun v row => some (step v row)) none

theorem load_gather (key : A → K) (step : Option V → A → V) (rows : List A) (k : K) :
    (gather key step rows).load k = gathered step (rows.filter fun row => key row = k) := by
  have hfold : ∀ (m : GoMap K V),
      (rows.foldl (fun m row => m.store (key row) (step (m.load (key row)) row)) m).load k =
        (rows.filter fun row => key row = k).foldl (fun v row => some (step v row)) (m.load k) := by
    induction rows with
    | nil => exact fun _ => rfl
    | cons row rows ih =>
      intro m
      rw [List.foldl_cons, ih, load_store, List.filter_cons]
      by_cases hk : key row = k
      · rw [if_pos (decide_eq_true hk), List.foldl_cons, if_pos hk.symm, hk]
      · rw [if_neg (mt of_decide_eq_true hk), if_neg (Ne.symm hk)]
  exact hfold ∅

omit [DecidableEq K] in
theorem gathered_induction {step : Option V → A → V} {P : List A → V → Prop}
    (hfirst : ∀ row, P [row] (step none row))
    (hnext : ∀ rows row v, P rows v → P (rows ++ [row]) (step (some v) row)) {rows : List A} :
    ∀ {v : V}, gathered step rows = some v → P rows v := by
  induction rows using List.reverseRecOn with
  | nil => exact nofun
  | append_singleton rows row ih =>
    intro v hv
    unfold gathered at hv ih
    rw [List.foldl_append] at hv
    cases hrows : rows.foldl (fun v row => some (step v row)) none with
    | none =>
      have hnil : rows = [] := by
        cases rows using List.reverseRecOn with
        | nil => rfl
        | append_singleton rows row' =>
          rw [List.foldl_append] at hrows
          cases hrows
      rw [hnil] at hv ⊢
      cases hv
      exact hfirst row
    | some w =>
      rw [hrows] at hv
      cases hv
      exact hnext rows row w (ih hrows)

omit [DecidableEq K] in
theorem gathered_isSome {step : Option V → A → V} {rows : List A} :
    (gathered step rows).isSome = true ↔ rows ≠ [] := by
  cases rows using List.reverseRecOn with
  | nil => exact ⟨nofun, fun h => absurd rfl h⟩
  | append_singleton rows row =>
    unfold gathered
    rw [List.foldl_append]
    exact ⟨fun _ => List.append_ne_nil_of_right_ne_nil _ (List.cons_ne_nil row []), fun _ => rfl⟩

omit [DecidableEq K] in
theorem countP_eq_one {B : Type} {f : A → B} {rows : List A} {p : A → Bool} {a : A}
    (hnodup : (rows.map f).Nodup) (ha : a ∈ rows)
    (hp : ∀ b ∈ rows, p b = true ↔ f b = f a) : rows.countP p = 1 := by
  classical
  have hcount : rows.countP p = rows.countP fun b => decide (f b = f a) :=
    List.countP_congr fun b hb => (hp b hb).trans decide_eq_true_iff.symm
  rw [hcount, ← List.count_eq_one_of_mem hnodup (List.mem_map_of_mem ha), List.count,
    List.countP_map]
  apply List.countP_congr
  intro b _
  rw [decide_eq_true_iff, Function.comp_apply, beq_iff_eq]

def values (m : GoMap K V) : List V := m.entries.map Sigma.snd

theorem values_store (m : GoMap K V) (k : K) (v : V) :
    values (m.store k v) = v :: values (m.delete k) := rfl

theorem values_delete {m : GoMap K V} {k : K} {v : V} (h : m.load k = some v) :
    (values m).Perm (v :: values (m.delete k)) := by
  obtain ⟨w, left, right, -, hm, hdelete⟩ := List.exists_of_kerase (mem_keys_of_load h)
  have hw : m.load k = some w := by
    rw [← mem_entries_iff, hm]
    exact List.mem_append_right _ (List.mem_cons_self ..)
  rw [h] at hw
  cases hw
  have hrest : (m.delete k).entries = left ++ right := hdelete
  unfold values
  rw [hm, hrest, List.map_append, List.map_append, List.map_cons]
  exact List.perm_middle

theorem values_absent {m : GoMap K V} {k : K} (h : m.load k = none) :
    values (m.delete k) = values m := by
  have hdelete : (m.delete k).entries = m.entries :=
    List.kerase_of_notMem_keys ((load_eq_none m k).mp h)
  unfold values
  rw [hdelete]

theorem RangeOrder.pairs_values (o : RangeOrder K V) (m : GoMap K V) :
    ((o.pairs m).map Prod.snd).Perm (values m) := by
  have hentries : (o.pairs m).Perm (m.entries.map fun e => (e.1, e.2)) := by
    apply (List.perm_ext_iff_of_nodup (List.Nodup.of_map Prod.fst (o.pairs_nodup m)) _).mpr
    · rintro ⟨k, v⟩
      rw [o.mem_pairs, ← mem_entries_iff, List.mem_map]
      constructor
      · exact fun h => ⟨⟨k, v⟩, h, rfl⟩
      · rintro ⟨⟨k', v'⟩, h, heq⟩
        cases heq
        exact h
    · apply List.Nodup.of_map Prod.fst
      rw [List.map_map]
      exact m.nodupKeys
  have hvalues := hentries.map Prod.snd
  rw [List.map_map] at hvalues
  exact hvalues

def RangeOrder.leading (k : K) : RangeOrder K V where
  keys m := if m.keys.contains k then k :: m.keys.erase k else m.keys
  perm m := by
    split_ifs with hk
    · exact (List.perm_cons_erase (List.contains_iff_mem.mp hk)).symm
    · exact List.Perm.refl _

theorem RangeOrder.leading_pairs {m : GoMap K V} {k : K} {v : V} (h : m.load k = some v) :
    ∃ rest, (RangeOrder.leading k).pairs m = (k, v) :: rest := by
  unfold RangeOrder.pairs RangeOrder.leading
  dsimp only
  rw [if_pos (List.contains_iff_mem.mpr (mem_keys_of_load h)), List.filterMap_cons, h]
  exact ⟨_, rfl⟩

end GoMap
