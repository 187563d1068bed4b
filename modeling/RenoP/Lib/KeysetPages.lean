import Mathlib.Data.List.Nodup
import Mathlib.Data.List.Perm.Basic
import Mathlib.Data.List.Flatten
import Mathlib.Order.WithBot

/-!
# Pages after a key

A client follows the links of its answers. The listing it reads has several sorted lists that share
one cursor: a page has the first keys of each list after the cursor, and a full page a link with the
cursor of its last key.
-/

namespace KeysetPages

section Client
variable {C D α β : Type}

inductive Follows (answer : ℕ → C → Option (List α × Option C)) : ℕ → C → List α → Prop
  | last {k c items} (h : answer k c = some (items, none)) : Follows answer k c items
  | more {k c c' items rest} (h : answer k c = some (items, some c'))
      (tail : Follows answer (k + 1) c' rest) : Follows answer k c (items ++ rest)

theorem follows_iff {answer : ℕ → C → Option (List α × Option C)}
    {answer' : ℕ → D → Option (List β × Option D)} {σ : C → D} {f : β → α}
    (h : ∀ k c, (answer k c).map (fun p => (p.1, p.2.map σ)) =
      (answer' k (σ c)).map fun p => (p.1.map f, p.2)) {k : ℕ} {c : C} {got : List α} :
    Follows answer k c got ↔ ∃ got', Follows answer' k (σ c) got' ∧ got = got'.map f := by
  constructor
  · intro hfollows
    induction hfollows with
    | @last k c items hanswer =>
      have hsame := h k c
      rw [hanswer, Option.map_some, eq_comm, Option.map_eq_some_iff] at hsame
      obtain ⟨⟨items', link⟩, hfound, heq⟩ := hsame
      rw [Prod.mk.injEq] at heq
      obtain ⟨hitems, hlink⟩ := heq
      subst hlink
      exact ⟨items', .last hfound, hitems.symm⟩
    | @more k c c' items rest hanswer tail ih =>
      obtain ⟨rest', htail, hrest⟩ := ih
      have hsame := h k c
      rw [hanswer, Option.map_some, eq_comm, Option.map_eq_some_iff] at hsame
      obtain ⟨⟨items', link⟩, hfound, heq⟩ := hsame
      rw [Prod.mk.injEq] at heq
      obtain ⟨hitems, hlink⟩ := heq
      dsimp only at hitems
      subst hlink
      exact ⟨items' ++ rest', .more hfound htail, by rw [List.map_append, ← hrest, ← hitems]⟩
  · rintro ⟨got', hfollows, rfl⟩
    generalize hd : σ c = d at hfollows
    induction hfollows generalizing c with
    | @last k d items hanswer =>
      subst hd
      have hsame := h k c
      rw [hanswer, Option.map_some, Option.map_eq_some_iff] at hsame
      obtain ⟨⟨items', link⟩, hfound, heq⟩ := hsame
      rw [Prod.mk.injEq, Option.map_eq_none_iff] at heq
      obtain ⟨hitems, hlink⟩ := heq
      dsimp only at hitems hlink
      subst hitems hlink
      exact .last hfound
    | @more k d d' items rest hanswer tail ih =>
      subst hd
      have hsame := h k c
      rw [hanswer, Option.map_some, Option.map_eq_some_iff] at hsame
      obtain ⟨⟨items', link⟩, hfound, heq⟩ := hsame
      rw [Prod.mk.injEq, Option.map_eq_some_iff] at heq
      obtain ⟨hitems, c', hlink, hc'⟩ := heq
      dsimp only at hitems hlink
      subst hitems hlink
      rw [List.map_append]
      exact .more hfound (ih hc')

end Client

structure Listing (ι κ : Type) [LinearOrder κ] where
  members : List ι
  lists : ι → List κ
  /-- the cursor after a key -/
  cursor : ι → κ → WithBot κ
  /-- the number of keys of one list on a page, and the number from which a page has a link -/
  limit : ℕ
  size : ℕ
  nodup : members.Nodup
  sorted : ∀ i, (lists i).Pairwise (· < ·)
  limit_pos : 0 < limit
  size_pos : 0 < size

namespace Listing

variable {ι κ : Type} [LinearOrder κ]

def after (c : WithBot κ) (keys : List κ) : List κ :=
  keys.filter fun k => decide (c < (k : WithBot κ))

variable (l : Listing ι κ)

def page (c : WithBot κ) (i : ι) : List κ := (after c (l.lists i)).take l.limit

def items (order : List ι) (c : WithBot κ) : List (ι × κ) :=
  order.flatMap fun i => (l.page c i).map fun k => (i, k)

def answer (order : List ι) (c : WithBot κ) : List (ι × κ) × Option (WithBot κ) :=
  let items := l.items order c
  (items, if l.size ≤ items.length then items.getLast?.map fun e => l.cursor e.1 e.2 else none)

def all : List (ι × κ) := l.members.flatMap fun i => (l.lists i).map fun k => (i, k)

def Receives (orders : ℕ → List ι) : ℕ → WithBot κ → List (ι × κ) → Prop :=
  Follows fun k c => some (l.answer (orders k) c)

def Complete : Prop :=
  ∀ orders : ℕ → List ι, (∀ k, (orders k).Perm l.members) →
    ∃ got, l.Receives orders 0 ⊥ got ∧ got.Perm l.all

def Full (c : WithBot κ) : Prop := l.size ≤ (l.items l.members c).length

inductive Reached : WithBot κ → Prop
  | start : Reached ⊥
  | next {c i k} (h : Reached c) (hfull : l.Full c) (hi : i ∈ l.members)
      (hk : (l.page c i).getLast? = some k) : Reached (l.cursor i k)

/-- Whichever list comes last on a page with a link, its cursor is, in every list, after what has
been sent and before what has not; and a page without a link has room for the rest of every list. -/
structure Separated : Prop where
  full : ∀ c, l.Reached c → l.Full c → ∀ i ∈ l.members, ∀ k, (l.page c i).getLast? = some k →
    ∀ j ∈ l.members, ∀ x ∈ l.lists j,
      (x : WithBot κ) ≤ l.cursor i k ↔ (x : WithBot κ) ≤ c ∨ x ∈ l.page c j
  last : ∀ c, l.Reached c → ¬l.Full c → ∀ j ∈ l.members, (after c (l.lists j)).length ≤ l.limit

variable {l} {c : WithBot κ} {i : ι} {order : List ι}

theorem mem_after {keys : List κ} {k : κ} : k ∈ after c keys ↔ k ∈ keys ∧ c < (k : WithBot κ) := by
  simp [after]

theorem after_sorted (c : WithBot κ) (i : ι) : (after c (l.lists i)).Pairwise (· < ·) :=
  (l.sorted i).filter _

theorem after_nodup (c : WithBot κ) (i : ι) : (after c (l.lists i)).Nodup :=
  (after_sorted c i).imp fun h => h.ne

theorem page_sublist : (l.page c i).Sublist (after c (l.lists i)) := List.take_sublist ..

theorem mem_of_mem_page {k : κ} (h : k ∈ l.page c i) : k ∈ l.lists i ∧ c < (k : WithBot κ) :=
  mem_after.mp (page_sublist.mem h)

theorem page_of_not_mem {w : κ} (hw : w ∈ l.lists i) (hc : c < (w : WithBot κ))
    (hnot : w ∉ l.page c i) : (l.page c i).length = l.limit ∧ ∀ u ∈ l.page c i, u < w := by
  have hsplit : l.page c i ++ (after c (l.lists i)).drop l.limit = after c (l.lists i) :=
    List.take_append_drop ..
  have hdrop : w ∈ (after c (l.lists i)).drop l.limit := by
    have hmem : w ∈ after c (l.lists i) := mem_after.mpr ⟨hw, hc⟩
    rw [← hsplit, List.mem_append] at hmem
    exact hmem.resolve_left hnot
  have hsorted := after_sorted (l := l) c i
  rw [← hsplit, List.pairwise_append] at hsorted
  constructor
  · have hlength : ((after c (l.lists i)).drop l.limit).length ≠ 0 := by
      intro hzero
      rw [List.length_eq_zero_iff] at hzero
      rw [hzero] at hdrop
      cases hdrop
    rw [List.length_drop] at hlength
    unfold page
    rw [List.length_take]
    omega
  · exact fun u hu => hsorted.2.2 u hu w hdrop

theorem mem_page_of_le {x z : κ} (hx : x ∈ l.page c i) (hz : z ∈ l.lists i)
    (hc : c < (z : WithBot κ)) (hle : z ≤ x) : z ∈ l.page c i := by
  by_contra hnot
  exact absurd ((page_of_not_mem hz hc hnot).2 x hx) (not_lt.mpr hle)

theorem mem_pairs {is : List ι} {ks : ι → List κ} {e : ι × κ} :
    (e ∈ is.flatMap fun i => (ks i).map fun k => (i, k)) ↔ e.1 ∈ is ∧ e.2 ∈ ks e.1 := by
  rw [List.mem_flatMap]
  constructor
  · rintro ⟨i, hi, hmem⟩
    obtain ⟨k, hk, rfl⟩ := List.mem_map.mp hmem
    exact ⟨hi, hk⟩
  · rintro ⟨hi, hk⟩
    exact ⟨e.1, hi, List.mem_map.mpr ⟨e.2, hk, rfl⟩⟩

theorem mem_items {e : ι × κ} : e ∈ l.items order c ↔ e.1 ∈ order ∧ e.2 ∈ l.page c e.1 :=
  mem_pairs

theorem mem_all {e : ι × κ} : e ∈ l.all ↔ e.1 ∈ l.members ∧ e.2 ∈ l.lists e.1 := mem_pairs

theorem items_perm {order' : List ι} (h : order.Perm order') (c : WithBot κ) :
    (l.items order c).Perm (l.items order' c) := h.flatMap_right _

omit [LinearOrder κ] in
theorem nodup_keys {keys : ι → List κ} (hkeys : ∀ i, (keys i).Nodup) :
    ∀ {order : List ι}, order.Nodup →
      (order.flatMap fun i => (keys i).map fun k => (i, k)).Nodup := by
  intro order hnodup
  rw [List.nodup_flatMap]
  constructor
  · intro i _
    exact (hkeys i).map fun a b h => (Prod.mk.inj h).2
  · refine hnodup.imp ?_
    intro i j hij e he he'
    obtain ⟨k, -, rfl⟩ := List.mem_map.mp he
    obtain ⟨k', -, heq⟩ := List.mem_map.mp he'
    exact hij (Prod.mk.inj heq).1.symm

theorem all_nodup : l.all.Nodup :=
  nodup_keys (fun i => (l.sorted i).imp fun h => h.ne) l.nodup

theorem getLast_items {e : ι × κ} (h : (l.items order c).getLast? = some e) :
    e.1 ∈ order ∧ (l.page c e.1).getLast? = some e.2 := by
  induction order with
  | nil => cases h
  | cons i order ih =>
    have hcons : l.items (i :: order) c = (l.page c i).map (fun k => (i, k)) ++ l.items order c :=
      List.flatMap_cons ..
    rw [hcons, List.getLast?_append, Option.or_eq_some_iff] at h
    rcases h with hlast | ⟨-, hfirst⟩
    · obtain ⟨hmem, hkey⟩ := ih hlast
      exact ⟨List.mem_cons_of_mem i hmem, hkey⟩
    · rw [List.getLast?_map, Option.map_eq_some_iff] at hfirst
      obtain ⟨k, hk, rfl⟩ := hfirst
      exact ⟨List.mem_cons_self .., hk⟩

theorem answer_of_not_full (horder : order.Perm l.members) (h : ¬l.Full c) :
    l.answer order c = (l.items order c, none) := by
  unfold answer
  dsimp only
  rw [if_neg]
  rwa [(items_perm horder c).length_eq]

theorem answer_of_full (horder : order.Perm l.members) (h : l.Full c) :
    ∃ i k, i ∈ l.members ∧ (l.page c i).getLast? = some k ∧
      l.answer order c = (l.items order c, some (l.cursor i k)) := by
  have hsize : l.size ≤ (l.items order c).length := by
    rw [(items_perm horder c).length_eq]
    exact h
  have hne : l.items order c ≠ [] := by
    intro hempty
    have hpos := l.size_pos
    rw [hempty] at hsize
    simp at hsize
    omega
  obtain ⟨e, he⟩ := Option.isSome_iff_exists.mp (List.getLast?_isSome.mpr hne)
  obtain ⟨hmem, hkey⟩ := getLast_items he
  refine ⟨e.1, e.2, horder.mem_iff.mp hmem, hkey, ?_⟩
  unfold answer
  dsimp only
  rw [if_pos hsize, he, Option.map_some]

def rest (l : Listing ι κ) (c : WithBot κ) : List (ι × κ) :=
  l.members.flatMap fun i => (after c (l.lists i)).map fun k => (i, k)

theorem rest_bot : l.rest ⊥ = l.all := by
  unfold rest all after
  congr 1
  funext i
  rw [List.filter_eq_self.mpr fun k _ => decide_eq_true (WithBot.bot_lt_coe k)]

theorem rest_of_separated {c' : WithBot κ}
    (h : ∀ j ∈ l.members, ∀ x ∈ l.lists j,
      (x : WithBot κ) ≤ c' ↔ (x : WithBot κ) ≤ c ∨ x ∈ l.page c j) :
    (l.rest c).Perm (l.items l.members c ++ l.rest c') := by
  have hlist : ∀ j ∈ l.members,
      (after c (l.lists j)).Perm (l.page c j ++ after c' (l.lists j)) := by
    intro j hj
    have hdisjoint : List.Disjoint (l.page c j) (after c' (l.lists j)) := by
      intro x hx hx'
      obtain ⟨hmem, hlater⟩ := mem_after.mp hx'
      exact absurd ((h j hj x hmem).mpr (Or.inr hx)) (not_le.mpr hlater)
    refine (List.perm_ext_iff_of_nodup (after_nodup c j)
      ((page_sublist.nodup (after_nodup c j)).append (after_nodup c' j) hdisjoint)).mpr ?_
    intro x
    rw [List.mem_append, mem_after, mem_after]
    constructor
    · rintro ⟨hmem, hc⟩
      by_cases hpage : x ∈ l.page c j
      · exact Or.inl hpage
      · refine Or.inr ⟨hmem, not_le.mp fun hle => ?_⟩
        rcases (h j hj x hmem).mp hle with hsent | hon
        · exact absurd hc (not_lt.mpr hsent)
        · exact hpage hon
    · rintro (hpage | ⟨hmem, hlater⟩)
      · exact mem_of_mem_page hpage
      · refine ⟨hmem, not_le.mp fun hle => ?_⟩
        exact absurd ((h j hj x hmem).mpr (Or.inl hle)) (not_le.mpr hlater)
  have hsplit : (l.rest c).Perm (l.members.flatMap fun j =>
      (l.page c j).map (fun k => (j, k)) ++ (after c' (l.lists j)).map fun k => (j, k)) := by
    apply List.Perm.flatMap_left
    intro j hj
    rw [← List.map_append]
    exact (hlist j hj).map _
  exact hsplit.trans (List.flatMap_append_perm ..).symm

theorem Separated.receives (h : l.Separated) {orders : ℕ → List ι}
    (horders : ∀ k, (orders k).Perm l.members) {c : WithBot κ} {k : ℕ} (hreached : l.Reached c) :
    ∃ got, l.Receives orders k c got ∧ got.Perm (l.rest c) := by
  induction hlength : (l.rest c).length using Nat.strong_induction_on generalizing c k with
  | h length ih =>
    by_cases hfull : l.Full c
    · obtain ⟨i, x, hi, hx, hanswer⟩ := answer_of_full (horders k) hfull
      have hrest := rest_of_separated (h.full c hreached hfull i hi x hx)
      have hshort : (l.rest (l.cursor i x)).length < length := by
        have hsum := hrest.length_eq
        have hpos := l.size_pos
        unfold Full at hfull
        rw [List.length_append] at hsum
        omega
      obtain ⟨got, hgot, hperm⟩ := ih _ hshort (k := k + 1) (hreached.next hfull hi hx) rfl
      refine ⟨l.items (orders k) c ++ got, .more (by rw [hanswer]) hgot, ?_⟩
      exact ((items_perm (horders k) c).append hperm).trans hrest.symm
    · refine ⟨l.items (orders k) c, .last (by rw [answer_of_not_full (horders k) hfull]), ?_⟩
      have hwhole : l.items l.members c = l.rest c := by
        unfold items rest
        apply List.flatMap_congr
        intro j hj
        unfold page
        rw [List.take_of_length_le (h.last c hreached hfull j hj)]
      rw [← hwhole]
      exact items_perm (horders k) c

theorem Separated.complete (h : l.Separated) : l.Complete := by
  intro orders horders
  obtain ⟨got, hgot, hperm⟩ := h.receives horders (k := 0) .start
  rw [rest_bot] at hperm
  exact ⟨got, hgot, hperm⟩

variable (l) in
inductive Path : WithBot κ → List (ι × κ) → Prop
  | start : Path ⊥ []
  | step {c sent i k} (h : Path c sent) (hfull : l.Full c) (hi : i ∈ l.members)
      (hk : (l.page c i).getLast? = some k) :
      Path (l.cursor i k) (sent ++ l.items l.members c)

theorem Reached.path (h : l.Reached c) : ∃ sent, l.Path c sent := by
  induction h with
  | start => exact ⟨[], .start⟩
  | next _ hfull hi hk ih =>
    obtain ⟨sent, hpath⟩ := ih
    exact ⟨_, hpath.step hfull hi hk⟩

variable {sent : List (ι × κ)}

theorem Path.orders [DecidableEq ι] (h : l.Path c sent) :
    ∃ first : List (List ι), (∀ order ∈ first, order.Perm l.members) ∧
      ∀ orders : ℕ → List ι, (∀ k order, first[k]? = some order → orders k = order) →
        ∀ got, l.Receives orders 0 ⊥ got →
          ∃ s r, s.Perm sent ∧ got = s ++ r ∧ l.Receives orders first.length c r := by
  induction h with
  | start => exact ⟨[], by simp, fun orders _ got hgot => ⟨[], got, .refl _, rfl, hgot⟩⟩
  | @step c sent i k hpath hfull hi hk ih =>
    obtain ⟨first, hperm, hfirst⟩ := ih
    -- the list of the last key comes last
    have hlast : (l.members.erase i ++ [i]).Perm l.members :=
      List.perm_append_comm.trans (List.perm_cons_erase hi).symm
    refine ⟨first ++ [l.members.erase i ++ [i]], ?_, ?_⟩
    · intro order horder
      rcases List.mem_append.mp horder with hold | hnew
      · exact hperm order hold
      · rw [List.mem_singleton.mp hnew]
        exact hlast
    · intro orders horders got hgot
      obtain ⟨s, r, hs, rfl, hr⟩ := hfirst orders (by
        intro k' order hk'
        apply horders
        rw [List.getElem?_append_left (List.getElem?_eq_some_iff.mp hk').1, hk']) got hgot
      have hnow : orders first.length = l.members.erase i ++ [i] := by
        apply horders
        simp
      have hanswer : l.answer (orders first.length) c =
          (l.items (l.members.erase i ++ [i]) c, some (l.cursor i k)) := by
        have hsize : l.size ≤ (l.items (l.members.erase i ++ [i]) c).length := by
          rw [(items_perm hlast c).length_eq]
          exact hfull
        have hend : (l.items (l.members.erase i ++ [i]) c).getLast? = some (i, k) := by
          unfold items
          rw [List.flatMap_append, List.flatMap_singleton, List.getLast?_append,
            List.getLast?_map, hk]
          rfl
        rw [hnow]
        unfold answer
        dsimp only
        rw [if_pos hsize, hend, Option.map_some]
      cases hr with
      | last hanswer' =>
        rw [hanswer] at hanswer'
        simp at hanswer'
      | @more _ _ c' items r' hanswer' htail =>
        rw [hanswer, Option.some.injEq, Prod.mk.injEq, Option.some.injEq] at hanswer'
        obtain ⟨rfl, rfl⟩ := hanswer'
        refine ⟨s ++ l.items (l.members.erase i ++ [i]) c, r', hs.append (items_perm hlast c),
          ?_, ?_⟩
        · rw [List.append_assoc]
        · rw [List.length_append, List.length_singleton]
          exact htail

theorem Path.subperm [DecidableEq ι] (hcomplete : l.Complete) (h : l.Path c sent) :
    (sent ++ l.items l.members c).Subperm l.all ∧
      (¬l.Full c → (sent ++ l.items l.members c).Perm l.all) := by
  obtain ⟨first, hperm, hfirst⟩ := h.orders
  let orders : ℕ → List ι := fun k => first[k]?.getD l.members
  have horders : ∀ k, (orders k).Perm l.members := by
    intro k
    show (first[k]?.getD l.members).Perm l.members
    cases hk : first[k]? with
    | none => exact .refl _
    | some order => exact hperm order (List.mem_of_getElem? hk)
  obtain ⟨got, hgot, hall⟩ := hcomplete orders horders
  obtain ⟨s, r, hs, rfl, hr⟩ := hfirst orders
    (fun k order hk => by show first[k]?.getD l.members = order; rw [hk]; rfl) got hgot
  have hitems : (l.items (orders first.length) c).Perm (l.items l.members c) :=
    items_perm (horders first.length) c
  cases hr with
  | last hanswer =>
    rw [Option.some.injEq] at hanswer
    have hr : l.items (orders first.length) c = r := congrArg Prod.fst hanswer
    rw [← hr] at hall
    have hsent := (hs.append hitems).symm.trans hall
    exact ⟨hsent.subperm, fun _ => hsent⟩
  | @more _ _ c' items r' hanswer htail =>
    rw [Option.some.injEq] at hanswer
    have hr : l.items (orders first.length) c = items := congrArg Prod.fst hanswer
    rw [← hr, ← List.append_assoc] at hall
    constructor
    · refine (hs.append hitems).symm.subperm.trans ?_
      exact (List.sublist_append_left ..).subperm.trans hall.subperm
    · intro hfull
      rw [answer_of_not_full (horders _) hfull, Prod.mk.injEq] at hanswer
      cases hanswer.2

variable (l) in
def Ordered : Prop :=
  ∀ i ∈ l.members, ∀ k ∈ l.lists i, ∀ k' ∈ l.lists i, k ≤ k' → l.cursor i k ≤ l.cursor i k'

theorem Path.not_twice [DecidableEq ι] (hcomplete : l.Complete) (h : l.Path c sent) {j : ι} {x : κ}
    (hsent : (j, x) ∈ sent) : x ∉ l.page c j := by
  intro hpage
  have hnodup : (sent ++ l.items l.members c).Nodup := by
    obtain ⟨received, hperm, hsublist⟩ := (h.subperm hcomplete).1
    exact hperm.nodup_iff.mp (hsublist.nodup all_nodup)
  have hmember : j ∈ l.members := (mem_all.mp ((h.subperm hcomplete).1.subset
    (List.mem_append_left _ hsent))).1
  exact (List.nodup_append.mp hnodup).2.2 _ hsent _ (mem_items.mpr ⟨hmember, hpage⟩) rfl

theorem items_length {order : List ι} {n : ℕ} (h : ∀ i ∈ order, (l.page c i).length = n) :
    (l.items order c).length = order.length * n := by
  induction order with
  | nil => simp [items]
  | cons i order ih =>
    have hcons : l.items (i :: order) c = (l.page c i).map (fun k => (i, k)) ++ l.items order c :=
      List.flatMap_cons ..
    rw [hcons, List.length_append, List.length_map, h i (List.mem_cons_self ..),
      ih fun j hj => h j (List.mem_cons_of_mem i hj), List.length_cons, Nat.add_mul, Nat.one_mul,
      Nat.add_comm]

theorem items_length_le (order : List ι) :
    (l.items order c).length ≤
      (order.filter fun i => decide (l.page c i ≠ [])).length * l.limit := by
  induction order with
  | nil => simp [items]
  | cons i order ih =>
    have hcons : l.items (i :: order) c = (l.page c i).map (fun k => (i, k)) ++ l.items order c :=
      List.flatMap_cons ..
    have hpage : (l.page c i).length ≤ l.limit := List.length_take_le ..
    rw [hcons, List.length_append, List.length_map]
    by_cases hempty : l.page c i = []
    · simpa [hempty] using ih
    · have hstays : ((i :: order).filter fun i => decide (l.page c i ≠ [])) =
          i :: order.filter fun i => decide (l.page c i ≠ []) :=
        List.filter_cons_of_pos (decide_eq_true hempty)
      rw [hstays, List.length_cons, Nat.add_mul, Nat.one_mul]
      omega

theorem Path.page_length [DecidableEq ι] (hcomplete : l.Complete) (h : l.Path c sent) {j : ι}
    {w : κ} (hw : w ∈ l.lists j) (hc : c < (w : WithBot κ)) (hsent : (j, w) ∈ sent) :
    (l.page c j).length = l.limit ∧ ∀ u ∈ l.page c j, u < w :=
  page_of_not_mem hw hc (h.not_twice hcomplete hsent)

/-- Lists that fill a page, each with a key that was sent and comes after the cursor, and one of
them with such a key whose cursor is no later: every page from there on is full and goes back. -/
structure Receding (l : Listing ι κ) (c : WithBot κ) (sent : List (ι × κ)) (back : List ι) (i : ι) :
    Prop where
  nodup : back.Nodup
  members : ∀ j ∈ back, j ∈ l.members
  size : l.size ≤ back.length * l.limit
  received : ∀ j ∈ back, ∃ w ∈ l.lists j, c < (w : WithBot κ) ∧ (j, w) ∈ sent
  mem : i ∈ back
  last : ∃ w ∈ l.lists i, c < (w : WithBot κ) ∧ (i, w) ∈ sent ∧ l.cursor i w ≤ c

theorem Receding.step [DecidableEq ι] {back : List ι} (hcomplete : l.Complete)
    (hordered : l.Ordered) (hpath : l.Path c sent) (h : l.Receding c sent back i) :
    ∃ k, l.Full c ∧ (l.page c i).getLast? = some k ∧
      l.Receding (l.cursor i k) (sent ++ l.items l.members c) back i := by
  have hpages : ∀ j ∈ back, (l.page c j).length = l.limit := by
    intro j hj
    obtain ⟨w, hw, hc, hsent⟩ := h.received j hj
    exact (hpath.page_length hcomplete hw hc hsent).1
  have hfull : l.Full c := by
    have hsub : back.Subperm l.members := List.subperm_of_subset h.nodup h.members
    have hitems : (l.items back c).length ≤ (l.items l.members c).length := by
      obtain ⟨some', hperm, hsublist⟩ := hsub
      rw [← (items_perm hperm c).length_eq]
      exact (hsublist.flatMap _).length_le
    rw [items_length hpages] at hitems
    exact h.size.trans hitems
  have hne : ∀ j ∈ back, l.page c j ≠ [] := by
    intro j hj hempty
    have hlength := hpages j hj
    rw [hempty] at hlength
    exact absurd hlength l.limit_pos.ne
  obtain ⟨k, hk⟩ := Option.isSome_iff_exists.mp (List.getLast?_isSome.mpr (hne i h.mem))
  have hkpage : k ∈ l.page c i := List.mem_of_getLast? hk
  obtain ⟨w, hw, hc, hsent, hback⟩ := h.last
  have hkw := (hpath.page_length hcomplete hw hc hsent).2 k hkpage
  have hle : l.cursor i k ≤ c :=
    (hordered i (h.members i h.mem) k (mem_of_mem_page hkpage).1 w hw hkw.le).trans hback
  have hnew : ∀ j ∈ back, ∀ u ∈ l.page c j, (j, u) ∈ sent ++ l.items l.members c :=
    fun j hj u hu => List.mem_append_right _ (mem_items.mpr ⟨h.members j hj, hu⟩)
  refine ⟨k, hfull, hk, h.nodup, h.members, h.size, ?_, h.mem, ?_⟩
  · intro j hj
    obtain ⟨u, hu⟩ := List.exists_mem_of_ne_nil _ (hne j hj)
    exact ⟨u, (mem_of_mem_page hu).1, hle.trans_lt (mem_of_mem_page hu).2, hnew j hj u hu⟩
  · exact ⟨k, (mem_of_mem_page hkpage).1, hle.trans_lt (mem_of_mem_page hkpage).2,
      hnew i h.mem k hkpage, le_rfl⟩

theorem Receding.elim [DecidableEq ι] {back : List ι} (hcomplete : l.Complete)
    (hordered : l.Ordered) (hpath : l.Path c sent) (h : l.Receding c sent back i) : False := by
  induction hleft : l.all.length - sent.length using Nat.strong_induction_on
    generalizing c sent with
  | h left ih =>
    obtain ⟨k, hfull, hk, hnext⟩ := h.step hcomplete hordered hpath
    have hbound := (hpath.subperm hcomplete).1.length_le
    have hpos := l.size_pos
    unfold Full at hfull
    rw [List.length_append] at hbound
    refine ih _ ?_ (hpath.step hfull (h.members i h.mem) hk) hnext rfl
    rw [List.length_append]
    omega

theorem Path.cursor_le [DecidableEq ι] {k : κ} (hcomplete : l.Complete) (hordered : l.Ordered)
    (hpath : l.Path c sent) (hfull : l.Full c) (hi : i ∈ l.members)
    (hk : (l.page c i).getLast? = some k) : c ≤ l.cursor i k := by
  by_contra hback
  rw [not_le] at hback
  have hkpage := List.mem_of_getLast? hk
  have hnew : ∀ j ∈ l.members, ∀ u ∈ l.page c j, (j, u) ∈ sent ++ l.items l.members c :=
    fun j hj u hu => List.mem_append_right _ (mem_items.mpr ⟨hj, hu⟩)
  have hreceding : l.Receding (l.cursor i k) (sent ++ l.items l.members c)
      (l.members.filter fun j => decide (l.page c j ≠ [])) i := by
    refine ⟨l.nodup.filter _, fun j hj => (List.mem_filter.mp hj).1,
      hfull.trans (items_length_le _), ?_, ?_, ?_⟩
    · intro j hj
      rw [List.mem_filter, decide_eq_true_eq] at hj
      obtain ⟨u, hu⟩ := List.exists_mem_of_ne_nil _ hj.2
      exact ⟨u, (mem_of_mem_page hu).1, hback.trans (mem_of_mem_page hu).2, hnew j hj.1 u hu⟩
    · rw [List.mem_filter, decide_eq_true_eq]
      exact ⟨hi, List.ne_nil_of_mem hkpage⟩
    · exact ⟨k, (mem_of_mem_page hkpage).1, hback.trans (mem_of_mem_page hkpage).2,
        hnew i hi k hkpage, le_rfl⟩
  exact hreceding.elim hcomplete hordered (hpath.step hfull hi hk)

theorem Path.not_passed [DecidableEq ι] {j : ι} {x : κ} (hcomplete : l.Complete)
    (hordered : l.Ordered) (hpath : l.Path c sent) (hx : (j, x) ∈ l.all)
    (hpassed : (x : WithBot κ) ≤ c) : (j, x) ∈ sent := by
  by_contra hnot
  induction hleft : l.all.length - sent.length using Nat.strong_induction_on
    generalizing c sent with
  | h left ih =>
    have hpage : (j, x) ∉ sent ++ l.items l.members c := by
      rw [List.mem_append, not_or]
      refine ⟨hnot, fun hitem => ?_⟩
      exact absurd (mem_of_mem_page (mem_items.mp hitem).2).2 (not_lt.mpr hpassed)
    obtain ⟨hsub, hend⟩ := hpath.subperm hcomplete
    by_cases hfull : l.Full c
    · obtain ⟨i, k, hi, hk, -⟩ := answer_of_full (.refl _) hfull
      have hbound := hsub.length_le
      have hpos := l.size_pos
      have hsize := hfull
      unfold Full at hsize
      rw [List.length_append] at hbound
      refine ih _ ?_ (hpath.step hfull hi hk)
        (hpassed.trans (hpath.cursor_le hcomplete hordered hfull hi hk)) hpage rfl
      rw [List.length_append]
      omega
    · exact hpage ((hend hfull).mem_iff.mpr hx)

theorem Path.mem_sent_iff [DecidableEq ι] {j : ι} {x : κ} (hcomplete : l.Complete)
    (hordered : l.Ordered) (hpath : l.Path c sent) (hx : (j, x) ∈ l.all) :
    (j, x) ∈ sent ↔ (x : WithBot κ) ≤ c := by
  refine ⟨fun hsent => ?_, hpath.not_passed hcomplete hordered hx⟩
  induction hpath generalizing x with
  | start => cases hsent
  | @step c sent i k hpath hfull hi hk ih =>
    by_contra hlater
    rw [not_le] at hlater
    obtain ⟨hj, hxj⟩ := mem_all.mp hx
    -- the first key after the new cursor was sent as well
    have hfirst : ∃ z, z ∈ l.page (l.cursor i k) j ∧ z ≤ x := by
      by_cases hpage : x ∈ l.page (l.cursor i k) j
      · exact ⟨x, hpage, le_rfl⟩
      · obtain ⟨hlength, hbelow⟩ := page_of_not_mem hxj hlater hpage
        have hne : l.page (l.cursor i k) j ≠ [] := by
          intro hempty
          rw [hempty] at hlength
          exact absurd hlength l.limit_pos.ne
        obtain ⟨z, hz⟩ := List.exists_mem_of_ne_nil _ hne
        exact ⟨z, hz, (hbelow z hz).le⟩
    obtain ⟨z, hz, hzx⟩ := hfirst
    have hzj := (mem_of_mem_page hz).1
    refine (hpath.step hfull hi hk).not_twice hcomplete ?_ hz
    rw [List.mem_append]
    by_cases hzc : (z : WithBot κ) ≤ c
    · exact Or.inl (hpath.not_passed hcomplete hordered (mem_all.mpr ⟨hj, hzj⟩) hzc)
    · rw [not_le] at hzc
      rw [List.mem_append] at hsent
      rcases hsent with hold | hnew
      · have hxc := ih hx hold
        exact absurd (hzc.trans_le (WithBot.coe_le_coe.mpr hzx)) (not_lt.mpr hxc)
      · exact Or.inr (mem_items.mpr ⟨hj, mem_page_of_le (mem_items.mp hnew).2 hzj hzc hzx⟩)

theorem separated_of_complete [DecidableEq ι] (hcomplete : l.Complete) (hordered : l.Ordered) :
    l.Separated := by
  constructor
  · intro c hreached hfull i hi k hk j hj x hx
    obtain ⟨sent, hpath⟩ := hreached.path
    have hall : (j, x) ∈ l.all := mem_all.mpr ⟨hj, hx⟩
    rw [← (hpath.step hfull hi hk).mem_sent_iff hcomplete hordered hall, List.mem_append,
      hpath.mem_sent_iff hcomplete hordered hall, mem_items]
    simp only [hj, true_and]
  · intro c hreached hfull j hj
    obtain ⟨sent, hpath⟩ := hreached.path
    have hsub : after c (l.lists j) ⊆ l.page c j := by
      intro x hx
      obtain ⟨hmem, hc⟩ := mem_after.mp hx
      have hall : (j, x) ∈ l.all := mem_all.mpr ⟨hj, hmem⟩
      have hsent := ((hpath.subperm hcomplete).2 hfull).mem_iff.mpr hall
      rcases List.mem_append.mp hsent with hold | hnew
      · exact absurd hc (not_lt.mpr ((hpath.mem_sent_iff hcomplete hordered hall).mp hold))
      · exact (mem_items.mp hnew).2
    exact (List.subperm_of_subset (after_nodup c j) hsub).length_le.trans (List.length_take_le ..)

theorem complete_iff [DecidableEq ι] (hordered : l.Ordered) : l.Complete ↔ l.Separated :=
  ⟨fun hcomplete => separated_of_complete hcomplete hordered, Separated.complete⟩

theorem separated_single_iff (hmembers : l.members = [i])
    (hcursor : ∀ k ∈ l.lists i, l.cursor i k = (k : WithBot κ)) :
    l.Separated ↔ l.size ≤ l.limit ∨ (l.lists i).length ≤ l.limit := by
  have hi : i ∈ l.members := by
    rw [hmembers]
    exact List.mem_singleton.mpr rfl
  have hitems : ∀ c, (l.items l.members c).length = (l.page c i).length := by
    intro c
    unfold items
    rw [hmembers, List.flatMap_singleton, List.length_map]
  constructor
  · intro h
    by_contra hnot
    push Not at hnot
    have hfull : ¬l.Full ⊥ := by
      have hpage : (l.page ⊥ i).length ≤ l.limit := List.length_take_le ..
      unfold Full
      rw [hitems]
      omega
    have hlength := h.last ⊥ .start hfull i hi
    have hall : after ⊥ (l.lists i) = l.lists i :=
      List.filter_eq_self.mpr fun k _ => decide_eq_true (WithBot.bot_lt_coe k)
    rw [hall] at hlength
    omega
  · intro h
    constructor
    · intro c _ _ i' hi' k hk j hj x hx
      rw [hmembers, List.mem_singleton] at hi' hj
      subst hi' hj
      have hkpage := List.mem_of_getLast? hk
      rw [hcursor k (mem_of_mem_page hkpage).1, WithBot.coe_le_coe]
      constructor
      · intro hle
        by_cases hc : (x : WithBot κ) ≤ c
        · exact Or.inl hc
        · exact Or.inr (mem_page_of_le hkpage hx (not_le.mp hc) hle)
      · rintro (hc | hpage)
        · exact WithBot.coe_le_coe.mp (hc.trans (mem_of_mem_page hkpage).2.le)
        · have hsorted : (l.page c j).Pairwise (· < ·) :=
            (after_sorted c j).sublist page_sublist
          obtain ⟨front, hfront⟩ := List.getLast?_eq_some_iff.mp hk
          rw [hfront] at hsorted hpage
          rcases List.mem_append.mp hpage with hmem | hlast
          · exact ((List.pairwise_append.mp hsorted).2.2 x hmem k (List.mem_singleton.mpr rfl)).le
          · exact (List.mem_singleton.mp hlast).le
    · intro c _ hfull j hj
      rw [hmembers, List.mem_singleton] at hj
      subst hj
      have hsub : (after c (l.lists j)).length ≤ (l.lists j).length := List.length_filter_le ..
      have hpage : (l.page c j).length = min l.limit (after c (l.lists j)).length :=
        List.length_take ..
      unfold Full at hfull
      rw [hitems] at hfull
      omega

end Listing

end KeysetPages
