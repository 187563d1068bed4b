import Mathlib.Data.List.Basic

/-!
# Programs whose statements may fail

A program is a tree of statements on a store. A query sees the store, a statement changes it in one
atomic step; each may report an error instead, and the process may stop before any of them. `Safe
crash post` is the weakest precondition for it: every store at which the process may stop satisfies
`crash`, and what the program returns satisfies `post`.
-/

inductive Program (σ α : Type) where
  | done (result : α)
  | query (next : Except String σ → Program σ α)
  | exec (effect : σ → Option σ) (next : Option String → Program σ α)

namespace Program

variable {σ α β : Type}

def bind : Program σ α → (α → Program σ β) → Program σ β
  | done a, f => f a
  | query next, f => query fun r => (next r).bind f
  | exec effect next, f => exec effect fun err => (next err).bind f

/-- The outcome `none` is a crash. A statement that the server refuses has no effect to apply, so
it can only fail. -/
inductive Ends : Program σ α → σ → Option α → σ → Prop
  | done {a s} : Ends (.done a) s (some a) s
  | crash {p s} : Ends p s none s
  | queryFailed {next s r t} (err : String) (h : Ends (next (.error err)) s r t) :
      Ends (.query next) s r t
  | query {next s r t} (h : Ends (next (.ok s)) s r t) : Ends (.query next) s r t
  | execFailed {effect next s r t} (err : String) (h : Ends (next (some err)) s r t) :
      Ends (.exec effect next) s r t
  | exec {effect next s s' r t} (heffect : effect s = some s') (h : Ends (next none) s' r t) :
      Ends (.exec effect next) s r t

inductive Fault where
  | fails (err : String)
  | crashes

/-- Runs the program, the faults taken one for each statement and none after the last. -/
def run : Program σ α → List (Option Fault) → σ → Option α × σ
  | done a, _, s => (some a, s)
  | query next, [], s => (next (.ok s)).run [] s
  | query next, none :: faults, s => (next (.ok s)).run faults s
  | query next, some (.fails err) :: faults, s => (next (.error err)).run faults s
  | query _, some .crashes :: _, s => (none, s)
  | exec effect next, [], s =>
    match effect s with
    | some t => (next none).run [] t
    | none => (next (some "refused")).run [] s
  | exec effect next, none :: faults, s =>
    match effect s with
    | some t => (next none).run faults t
    | none => (next (some "refused")).run faults s
  | exec _ next, some (.fails err) :: faults, s => (next (some err)).run faults s
  | exec _ _, some .crashes :: _, s => (none, s)

theorem run_ends (p : Program σ α) :
    ∀ (faults : List (Option Fault)) (s : σ), p.Ends s (p.run faults s).1 (p.run faults s).2 := by
  induction p with
  | done a =>
    intro faults s
    exact .done
  | query next ih =>
    intro faults s
    match faults with
    | [] => exact .query (ih (.ok s) [] s)
    | none :: faults => exact .query (ih (.ok s) faults s)
    | some (.fails err) :: faults => exact .queryFailed err (ih (.error err) faults s)
    | some .crashes :: faults => exact .crash
  | exec effect next ih =>
    intro faults s
    match faults with
    | [] =>
      unfold run
      cases h : effect s with
      | some t => exact .exec h (ih none [] t)
      | none => exact .execFailed "refused" (ih (some "refused") [] s)
    | none :: faults =>
      unfold run
      cases h : effect s with
      | some t => exact .exec h (ih none faults t)
      | none => exact .execFailed "refused" (ih (some "refused") faults s)
    | some (.fails err) :: faults => exact .execFailed err (ih (some err) faults s)
    | some .crashes :: faults => exact .crash

theorem Ends.bind {p : Program σ α} {f : α → Program σ β} {s t u : σ} {a : α} {r : Option β}
    (h : p.Ends s (some a) t) (hf : (f a).Ends t r u) : (p.bind f).Ends s r u := by
  induction p generalizing s with
  | done b =>
    cases h
    exact hf
  | query next ih =>
    cases h with
    | queryFailed err h => exact .queryFailed err (ih _ h)
    | query h => exact .query (ih _ h)
  | exec effect next ih =>
    cases h with
    | execFailed err h => exact .execFailed err (ih _ h)
    | exec heffect h => exact .exec heffect (ih _ h)

theorem Ends.bind_crash {p : Program σ α} {f : α → Program σ β} {s t : σ}
    (h : p.Ends s none t) : (p.bind f).Ends s none t := by
  induction p generalizing s with
  | done b =>
    cases h
    exact .crash
  | query next ih =>
    cases h with
    | crash => exact .crash
    | queryFailed err h => exact .queryFailed err (ih _ h)
    | query h => exact .query (ih _ h)
  | exec effect next ih =>
    cases h with
    | crash => exact .crash
    | execFailed err h => exact .execFailed err (ih _ h)
    | exec heffect h => exact .exec heffect (ih _ h)

def Safe (crash : σ → Prop) (post : α → σ → Prop) : Program σ α → σ → Prop
  | done a, s => crash s ∧ post a s
  | query next, s =>
    crash s ∧ (∀ err, Safe crash post (next (.error err)) s) ∧ Safe crash post (next (.ok s)) s
  | exec effect next, s =>
    crash s ∧ (∀ err, Safe crash post (next (some err)) s) ∧
      ∀ t, effect s = some t → Safe crash post (next none) t

variable {crash crash' : σ → Prop} {post post' : α → σ → Prop}

theorem Safe.mono {p : Program σ α} {s : σ} (h : p.Safe crash post s)
    (hcrash : ∀ t, crash t → crash' t) (hpost : ∀ a t, crash t → post a t → post' a t) :
    p.Safe crash' post' s := by
  induction p generalizing s with
  | done a => exact ⟨hcrash s h.1, hpost a s h.1 h.2⟩
  | query next ih => exact ⟨hcrash s h.1, fun err => ih _ (h.2.1 err), ih _ h.2.2⟩
  | exec effect next ih =>
    exact ⟨hcrash s h.1, fun err => ih _ (h.2.1 err), fun t ht => ih _ (h.2.2 t ht)⟩

theorem Safe.bind {post : α → σ → Prop} {post' : β → σ → Prop} {p : Program σ α}
    {f : α → Program σ β} {s : σ} (h : p.Safe crash post s)
    (hf : ∀ a t, crash t → post a t → (f a).Safe crash post' t) : (p.bind f).Safe crash post' s := by
  induction p generalizing s with
  | done a => exact hf a s h.1 h.2
  | query next ih => exact ⟨h.1, fun err => ih _ (h.2.1 err), ih _ h.2.2⟩
  | exec effect next ih =>
    exact ⟨h.1, fun err => ih _ (h.2.1 err), fun t ht => ih _ (h.2.2 t ht)⟩

theorem Safe.crashes {p : Program σ α} {s t : σ} (h : p.Safe crash post s)
    (hends : p.Ends s none t) : crash t := by
  induction p generalizing s with
  | done a =>
    cases hends
    exact h.1
  | query next ih =>
    cases hends with
    | crash => exact h.1
    | queryFailed err hends => exact ih _ (h.2.1 err) hends
    | query hends => exact ih _ h.2.2 hends
  | exec effect next ih =>
    cases hends with
    | crash => exact h.1
    | execFailed err hends => exact ih _ (h.2.1 err) hends
    | exec heffect hends => exact ih _ (h.2.2 _ heffect) hends

theorem Safe.returns {p : Program σ α} {s t : σ} {a : α} (h : p.Safe crash post s)
    (hends : p.Ends s (some a) t) : crash t ∧ post a t := by
  induction p generalizing s with
  | done b =>
    cases hends
    exact h
  | query next ih =>
    cases hends with
    | queryFailed err hends => exact ih _ (h.2.1 err) hends
    | query hends => exact ih _ h.2.2 hends
  | exec effect next ih =>
    cases hends with
    | execFailed err hends => exact ih _ (h.2.1 err) hends
    | exec heffect hends => exact ih _ (h.2.2 _ heffect) hends

theorem Safe.ends {p : Program σ α} {s t : σ} {r : Option α} (h : p.Safe crash post s)
    (hends : p.Ends s r t) : crash t := by
  cases r with
  | none => exact h.crashes hends
  | some a => exact (h.returns hends).1

end Program
