import Mathlib.Order.OrderIsoNat
import RenoP.Lib.OrderedLocks
import RenoP.Settings.Handlers

/-!
# Repository gates

`internal/service/repositorygate/gate.go`. The hash of its name assigns a repository one of 64
reader-writer locks. Mutations take it for reading, migrations and maintenance for writing.
-/

namespace RenoP.RepositoryGate

open OrderedLocks
open RenoP.Settings (foldByte)

abbrev Name := List UInt8

def repositoryStripeIndex (repository : Name) : Fin 64 :=
  Fin.ofNat 64 (repository.foldl
    (fun hash value => ((hash ^^^ (foldByte value).toNat) * 16777619) % 2 ^ 32) 2166136261)

theorem stripe_of_text (repository : Database.Text) :
    repositoryStripeIndex (repository.flatMap String.utf8EncodeChar) =
      Settings.repositoryStripeIndex repository := rfl

def compact {α : Type} [DecidableEq α] : List α → List α
  | a :: b :: l => if a = b then compact (b :: l) else a :: compact (b :: l)
  | l => l

inductive GateCall where
  | acquireMutation (repository : Name)
  | acquireMigration (repository : Name)
  | tryAcquireMaintenance (repository : Name)
  | acquireMutations (repositories : List Name)
  | acquireAllMigrations

/-- The locks of a call, in the order in which it takes them. -/
def GateCall.locks : GateCall → List (Fin 64 × Mode)
  | .acquireMutation repository => [(repositoryStripeIndex repository, .read)]
  | .acquireMigration repository => [(repositoryStripeIndex repository, .write)]
  | .tryAcquireMaintenance repository => [(repositoryStripeIndex repository, .write)]
  | .acquireMutations repositories =>
    (compact ((repositories.map repositoryStripeIndex).mergeSort fun a b => decide (a ≤ b))).map
      fun stripe => (stripe, .read)
  | .acquireAllMigrations => (List.finRange 64).map fun stripe => (stripe, .write)

def GateCall.waits : GateCall → Bool
  | .tryAcquireMaintenance _ => false
  | _ => true

def GateCall.exclusive : GateCall → Bool
  | .acquireMutation _ | .acquireMutations _ => false
  | _ => true

def GateCall.Covers (repository : Name) : GateCall → Prop
  | .acquireMutation r | .acquireMigration r | .tryAcquireMaintenance r => r = repository
  | .acquireMutations rs => repository ∈ rs
  | .acquireAllMigrations => True

abbrev System (n : ℕ) := Fin n → Thread (Fin 64)

abbrev Reached {n : ℕ} (s : System n) : Prop :=
  Reachable (fun p => ∃ c : GateCall, c.waits = true ∧ p = c.locks) s

def Inside {n : ℕ} (s : System n) (t : Fin n) (c : GateCall) : Prop :=
  (s t).todo = [] ∧ (s t).held = c.locks.reverse

theorem mem_compact {α : Type} [DecidableEq α] {a : α} (l : List α) : a ∈ compact l ↔ a ∈ l := by
  fun_induction compact l with
  | case1 b l ih =>
    rw [ih]
    simp only [List.mem_cons, or_self_left]
  | case2 b c l hne ih => simp only [List.mem_cons, ih]
  | case3 l hshort => rfl

theorem compact_ascending {l : List (Fin 64)} (h : l.Pairwise (· ≤ ·)) :
    (compact l).Pairwise (· < ·) := by
  fun_induction compact l with
  | case1 b l ih => exact ih (List.pairwise_cons.mp h).2
  | case2 b c l hne ih =>
    obtain ⟨hfirst, hrest⟩ := List.pairwise_cons.mp h
    refine List.pairwise_cons.mpr ⟨fun d hd => ?_, ih hrest⟩
    have hbc : b < c := lt_of_le_of_ne (hfirst c (List.mem_cons_self ..)) hne
    rcases List.mem_cons.mp ((mem_compact _).mp hd) with rfl | hd
    · exact hbc
    · exact hbc.trans_le ((List.pairwise_cons.mp hrest).1 d hd)
  | case3 l hshort =>
    match l, hshort with
    | [], _ => exact List.Pairwise.nil
    | [a], _ => exact List.pairwise_singleton _ _
    | a :: b :: l, hshort => exact absurd rfl (hshort a b l)

theorem locks_ascending (c : GateCall) : Ascending c.locks := by
  have hfst : ∀ (l : List (Fin 64)) (m : Mode),
      (l.map fun stripe => (stripe, m)).map Prod.fst = l := by
    intro l m
    rw [List.map_map]
    exact List.map_id l
  cases c with
  | acquireMutation repository => exact List.pairwise_singleton _ _
  | acquireMigration repository => exact List.pairwise_singleton _ _
  | tryAcquireMaintenance repository => exact List.pairwise_singleton _ _
  | acquireMutations repositories =>
    unfold Ascending GateCall.locks
    rw [hfst]
    apply compact_ascending
    refine (List.pairwise_mergeSort (fun a b c hab hbc => ?_) (fun a b => ?_) _).imp
      of_decide_eq_true
    · exact decide_eq_true (le_trans (of_decide_eq_true hab) (of_decide_eq_true hbc))
    · rw [Bool.or_eq_true, decide_eq_true_eq, decide_eq_true_eq]
      exact le_total a b
  | acquireAllMigrations =>
    unfold Ascending GateCall.locks
    rw [hfst]
    exact List.pairwise_lt_finRange 64

theorem covered_lock {c : GateCall} {repository : Name} (h : c.Covers repository) :
    ∃ m, (repositoryStripeIndex repository, m) ∈ c.locks ∧ (c.exclusive = true → m = .write) := by
  cases c with
  | acquireMutation r =>
    exact ⟨.read, h ▸ List.mem_cons_self .., fun hfalse => by cases hfalse⟩
  | acquireMigration r => exact ⟨.write, h ▸ List.mem_cons_self .., fun _ => rfl⟩
  | tryAcquireMaintenance r => exact ⟨.write, h ▸ List.mem_cons_self .., fun _ => rfl⟩
  | acquireMutations rs =>
    refine ⟨.read, List.mem_map.mpr ⟨_, (mem_compact _).mpr ?_, rfl⟩, fun hfalse => by cases hfalse⟩
    exact List.mem_mergeSort.mpr (List.mem_map_of_mem h)
  | acquireAllMigrations =>
    exact ⟨.write, List.mem_map.mpr ⟨_, List.mem_finRange _, rfl⟩, fun _ => rfl⟩

theorem stripe_congr {r r' : Name} (h : r.map foldByte = r'.map foldByte) :
    repositoryStripeIndex r = repositoryStripeIndex r' := by
  have hfold : ∀ l : Name, repositoryStripeIndex l = Fin.ofNat 64 ((l.map foldByte).foldl
      (fun hash value => ((hash ^^^ value.toNat) * 16777619) % 2 ^ 32) 2166136261) := by
    intro l
    rw [List.foldl_map]
    rfl
  rw [hfold, hfold, h]

variable {n : ℕ} {s : System n}

/-- No two calls are inside of one repository, whatever the case of its name, when one of them is a
migration or maintenance. -/
def Excludes (s : System n) : Prop :=
  ∀ t u c c' r r', t ≠ u → Inside s t c → Inside s u c' → c.exclusive = true →
    c.Covers r → c'.Covers r' → r.map foldByte ≠ r'.map foldByte

theorem migrations_exclude (h : Reached s) : Excludes s := by
  intro t u c c' r r' hne ht hu hexclusive hc hc' hsame
  have hinv := inv_of_reachable (fun p ⟨c, _, hp⟩ => hp ▸ locks_ascending c) h
  obtain ⟨m, hmem, hwrite⟩ := covered_lock hc
  obtain ⟨m', hmem', -⟩ := covered_lock hc'
  rw [hwrite hexclusive] at hmem
  rw [← stripe_congr hsame] at hmem'
  have hheld : (s t).Has (repositoryStripeIndex r) .exclusive :=
    show _ ∈ (s t).held from ht.2 ▸ List.mem_reverse.mpr hmem
  have hheld' : (repositoryStripeIndex r, m') ∈ (s u).held := hu.2 ▸ List.mem_reverse.mpr hmem'
  cases m' with
  | read => exact absurd (hinv.apart t u hne _ _ .shared hheld hheld') (by decide)
  | write => exact absurd (hinv.apart t u hne _ _ .exclusive hheld hheld') (by decide)

/-- Maintenance of the repository `a` is under way, a mutation of `A` waits. -/
def maintained : System 2 :=
  Function.update (Function.update (fun _ => .idle) 0
    ⟨[], false, [(repositoryStripeIndex [97], .write)]⟩) 1
    ⟨[(repositoryStripeIndex [65], .read)], false, []⟩

theorem maintained_reached : Reached maintained := by
  refine (Relation.ReflTransGen.refl.tail (.tryLock 0 rfl ?_)).tail
    (.start 1 rfl ⟨.acquireMutation [65], rfl, rfl⟩)
  intro u k hk
  cases k with
  | announced => cases hk.1
  | shared => cases hk
  | exclusive => cases hk

theorem maintained_excludes : Excludes maintained := migrations_exclude maintained_reached

end RenoP.RepositoryGate
