import RenoP.Lib.GoMap
import RenoP.Lib.Runs

/-!
# Calls that run side by side

A call is a process: it is over, or it asks a shared store for one atomic step and goes on with
the answer. A service says what calls run and how the store answers; a system is the store with
the calls that are running, and its next step may be that of any of them.

`Sound` judges a process by rely and guarantee: between its steps the store moves as `rely` allows,
each step moves the store as `guar` says and keeps the invariant, and the end satisfies `post`.
-/

inductive Process (Req : Type) (Resp : Req → Type) (α : Type) where
  | done (result : α)
  | ask (request : Req) (next : Resp request → Process Req Resp α)

namespace Process

variable {Req : Type} {Resp : Req → Type} {α β σ C : Type}

def bind : Process Req Resp α → (α → Process Req Resp β) → Process Req Resp β
  | done a, f => f a
  | ask r next, f => ask r fun x => (next x).bind f

instance instMonad : Monad (Process Req Resp) where
  pure := done
  bind := bind

def call (r : Req) : Process Req Resp (Resp r) := ask r done

def pending : Process Req Resp α → Option Req
  | done _ => none
  | ask r _ => some r

variable (serve : (r : Req) → C → σ → Option (σ × Resp r)) (fine : (r : Req) → C → σ → Prop)
  (id : ℕ) (inv : ℕ → σ → Prop) (rely guar : σ → σ → Prop)

/-- The steps that are judged are the fine ones. The invariant may speak of the number of calls
that have begun, which is above `id`. -/
def Sound (post : α → σ → Prop) : Process Req Resp α → σ → Prop
  | done a, s => post a s
  | ask r next, s => ∀ n s', id < n → inv n s' → rely s s' →
      ∀ c t x, fine r c s' → serve r c s' = some (t, x) →
        inv n t ∧ guar s' t ∧ Sound post (next x) t

variable {serve fine id inv rely guar}

theorem Sound.bind {post : α → σ → Prop} {post' : β → σ → Prop} {p : Process Req Resp α}
    {f : α → Process Req Resp β} {s : σ} (h : p.Sound serve fine id inv rely guar post s)
    (hf : ∀ a t, post a t → (f a).Sound serve fine id inv rely guar post' t) :
    (p >>= f).Sound serve fine id inv rely guar post' s := by
  induction p generalizing s with
  | done a => exact hf a s h
  | ask r next ih =>
    intro n s' hn hinv hrely c t x hfine hserve
    obtain ⟨hkept, hguar, hnext⟩ := h n s' hn hinv hrely c t x hfine hserve
    exact ⟨hkept, hguar, ih x hnext⟩

theorem Sound.step {post : α → σ → Prop} {r : Req} {f : Resp r → Process Req Resp α} {s : σ}
    (left : Resp r → σ → Prop)
    (hstep : ∀ n s', id < n → inv n s' → rely s s' → ∀ c t x, fine r c s' →
      serve r c s' = some (t, x) → inv n t ∧ guar s' t ∧ left x t)
    (hnext : ∀ x t, left x t → (f x).Sound serve fine id inv rely guar post t) :
    (call r >>= f).Sound serve fine id inv rely guar post s := by
  intro n s' hn hinv hrely c t x hfine hserve
  obtain ⟨hkept, hguar, hleft⟩ := hstep n s' hn hinv hrely c t x hfine hserve
  exact ⟨hkept, hguar, hnext x t hleft⟩

theorem Sound.mono {post post' : α → σ → Prop} {p : Process Req Resp α} {s : σ}
    (h : p.Sound serve fine id inv rely guar post s) (hpost : ∀ a t, post a t → post' a t) :
    p.Sound serve fine id inv rely guar post' s := by
  induction p generalizing s with
  | done a => exact hpost a s h
  | ask r next ih =>
    intro n s' hn hinv hrely c t x hfine hserve
    obtain ⟨hkept, hguar, hnext⟩ := h n s' hn hinv hrely c t x hfine hserve
    exact ⟨hkept, hguar, ih x hnext⟩

theorem Sound.later {post : α → σ → Prop} {r : Req} {next : Resp r → Process Req Resp α} {s s₁ : σ}
    (htrans : ∀ s₁ s₂ s₃, rely s₁ s₂ → rely s₂ s₃ → rely s₁ s₃) (hrely : rely s s₁)
    (h : (ask r next).Sound serve fine id inv rely guar post s) :
    (ask r next).Sound serve fine id inv rely guar post s₁ :=
  fun n s' hn hinv hlater => h n s' hn hinv (htrans s s₁ s' hrely hlater)

end Process

namespace Interleaving

variable {Req : Type} {Resp : Req → Type} {α σ C Op : Type}

/-- What calls there are. `C` is what a step leaves open, such as whether it fails. -/
structure Service (Req : Type) (Resp : Req → Type) (α σ C Op : Type) where
  body : ℕ → Op → Process Req Resp α
  /-- what a call finds done for it when it begins; `none` where it cannot begin -/
  begin : ℕ → Op → σ → Option σ
  serve : ℕ → (r : Req) → C → σ → Option (σ × Resp r)
  /-- what is left of the store when the process dies with its calls -/
  restart : σ → σ

structure Finished (α σ Op : Type) where
  id : ℕ
  op : Op
  result : α
  store : σ

structure System (Req : Type) (Resp : Req → Type) (α σ Op : Type) where
  store : σ
  threads : GoMap ℕ (Op × Process Req Resp α)
  count : ℕ
  finished : List (Finished α σ Op)

inductive Event (C Op : Type) where
  | start (op : Op)
  | turn (id : ℕ) (c : C)
  | restart

def System.initial (s : σ) : System Req Resp α σ Op := ⟨s, ∅, 0, []⟩

def System.settle (s : System Req Resp α σ Op) (id : ℕ) (op : Op) (store : σ) :
    Process Req Resp α → System Req Resp α σ Op
  | .done a =>
    { s with
      store := store
      threads := s.threads.delete id
      finished := ⟨id, op, a, store⟩ :: s.finished }
  | .ask r next => { s with store := store, threads := s.threads.store id (op, .ask r next) }

variable (svc : Service Req Resp α σ C Op)

def System.next (s : System Req Resp α σ Op) : Event C Op → System Req Resp α σ Op
  | .start op =>
    match svc.begin s.count op s.store with
    | none => s
    | some store =>
      { s with count := s.count + 1 }.settle s.count op store (svc.body s.count op)
  | .turn id c =>
    match s.threads.load id with
    | some (op, .ask r next) =>
      match svc.serve id r c s.store with
      | some (store, x) => s.settle id op store (next x)
      | none => s
    | _ => s
  | .restart => { s with store := svc.restart s.store, threads := ∅ }

structure Outline where
  inv : ℕ → σ → Prop
  rely : ℕ → Op → σ → σ → Prop
  guar : ℕ → Op → σ → σ → Prop
  post : ℕ → Op → α → σ → Prop
  /-- the steps that the outline is about -/
  fine : ℕ → (r : Req) → C → σ → Prop
  /-- the first may run beside the second -/
  compatible : Op → Op → Prop
  rely_refl : ∀ id op s, rely id op s s
  rely_trans : ∀ id op s₁ s₂ s₃, rely id op s₁ s₂ → rely id op s₂ s₃ → rely id op s₁ s₃
  begin_inv : ∀ n op s t, inv n s → svc.begin n op s = some t → inv (n + 1) t
  begin_sound : ∀ n op s t, inv n s → svc.begin n op s = some t →
    (svc.body n op).Sound (svc.serve n) (fine n) n inv (rely n op) (guar n op) (post n op) t
  begin_rely : ∀ n op s t, inv n s → svc.begin n op s = some t → ∀ id op', id < n →
    compatible op op' → rely id op' s t
  guar_rely : ∀ id op id' op' s t, id ≠ id' → compatible op op' → guar id op s t → rely id' op' s t
  restart_inv : ∀ n s, inv n s → inv n (svc.restart s)

variable {svc} (o : Outline svc)

def Permitted (s : System Req Resp α σ Op) : Event C Op → Prop
  | .start op => ∀ id op' p, s.threads.load id = some (op', p) →
      o.compatible op op' ∧ o.compatible op' op
  | .turn id c => ∀ op r next, s.threads.load id = some (op, .ask r next) → o.fine id r c s.store
  | .restart => True

structure Waiting (id : ℕ) (op : Op) (p : Process Req Resp α) (s : σ) : Prop where
  asks : p.pending.isSome = true
  sound : p.Sound (svc.serve id) (o.fine id) id o.inv (o.rely id op) (o.guar id op)
    (o.post id op) s

structure Kept (s : System Req Resp α σ Op) : Prop where
  inv : o.inv s.count s.store
  begun : ∀ id op p, s.threads.load id = some (op, p) → id < s.count
  waiting : ∀ id op p, s.threads.load id = some (op, p) → Waiting o id op p s.store
  compatible : ∀ id op p id' op' p', s.threads.load id = some (op, p) →
    s.threads.load id' = some (op', p') → id ≠ id' → o.compatible op op'
  finished : ∀ f ∈ s.finished, o.post f.id f.op f.result f.store

variable {o} {s : System Req Resp α σ Op}

theorem Waiting.later {id : ℕ} {op : Op} {p : Process Req Resp α} {s t : σ}
    (h : Waiting o id op p s) (hrely : o.rely id op s t) : Waiting o id op p t := by
  cases p with
  | done a => cases h.asks
  | ask r next => exact ⟨rfl, h.sound.later (o.rely_trans id op) hrely⟩

theorem Kept.settle {id : ℕ} {op : Op} {store : σ} {p : Process Req Resp α} (hk : Kept o s)
    {n : ℕ} (hn : s.count ≤ n) (hid : id < n) (hinv : o.inv n store)
    (hsound : p.Sound (svc.serve id) (o.fine id) id o.inv (o.rely id op) (o.guar id op)
      (o.post id op) store)
    (hother : ∀ id' op' p', s.threads.load id' = some (op', p') → id' ≠ id →
      o.rely id' op' s.store store)
    (hcompatible : ∀ id' op' p', s.threads.load id' = some (op', p') → id' ≠ id →
      o.compatible op op' ∧ o.compatible op' op) :
    Kept o ({ s with count := n }.settle id op store p) := by
  cases p with
  | done a =>
    have hold : ∀ {id' op' p'}, (s.threads.delete id).load id' = some (op', p') →
        id' ≠ id ∧ s.threads.load id' = some (op', p') := by
      intro id' op' p' hload
      rcases (GoMap.moves_delete s.threads id).cases hload with ⟨-, hnone⟩ | ⟨hne, hload⟩
      · cases hnone
      · exact ⟨hne, hload⟩
    constructor
    · exact hinv
    · exact fun id' op' p' hload => Nat.lt_of_lt_of_le (hk.begun id' op' p' (hold hload).2) hn
    · intro id' op' p' hload
      obtain ⟨hne, hload⟩ := hold hload
      exact (hk.waiting id' op' p' hload).later (hother id' op' p' hload hne)
    · intro id₁ op₁ p₁ id₂ op₂ p₂ hload₁ hload₂ hne
      exact hk.compatible id₁ op₁ p₁ id₂ op₂ p₂ (hold hload₁).2 (hold hload₂).2 hne
    · intro f hf
      rcases List.mem_cons.mp hf with rfl | hf
      · exact hsound
      · exact hk.finished f hf
  | ask r next =>
    have hcases : ∀ {id' op' p'}, (s.threads.store id (op, .ask r next)).load id' = some (op', p') →
        (id' = id ∧ op' = op ∧ p' = .ask r next) ∨
          (id' ≠ id ∧ s.threads.load id' = some (op', p')) := by
      intro id' op' p' hload
      rcases (GoMap.moves_store s.threads id _).cases hload with ⟨heq, hnew⟩ | ⟨hne, hload⟩
      · cases hnew
        exact Or.inl ⟨heq, rfl, rfl⟩
      · exact Or.inr ⟨hne, hload⟩
    constructor
    · exact hinv
    · intro id' op' p' hload
      rcases hcases hload with ⟨rfl, -, -⟩ | ⟨-, hload⟩
      · exact hid
      · exact Nat.lt_of_lt_of_le (hk.begun id' op' p' hload) hn
    · intro id' op' p' hload
      rcases hcases hload with ⟨rfl, rfl, rfl⟩ | ⟨hne, hload⟩
      · exact ⟨rfl, hsound⟩
      · exact (hk.waiting id' op' p' hload).later (hother id' op' p' hload hne)
    · intro id₁ op₁ p₁ id₂ op₂ p₂ hload₁ hload₂ hne
      rcases hcases hload₁ with ⟨rfl, rfl, rfl⟩ | ⟨hne₁, hold₁⟩
      · rcases hcases hload₂ with ⟨rfl, -, -⟩ | ⟨hne₂, hold₂⟩
        · exact absurd rfl hne
        · exact (hcompatible id₂ op₂ p₂ hold₂ hne₂).1
      · rcases hcases hload₂ with ⟨rfl, rfl, rfl⟩ | ⟨hne₂, hold₂⟩
        · exact (hcompatible id₁ op₁ p₁ hold₁ hne₁).2
        · exact hk.compatible id₁ op₁ p₁ id₂ op₂ p₂ hold₁ hold₂ hne
    · exact hk.finished

theorem Kept.next {e : Event C Op} (hk : Kept o s) (hpermitted : Permitted o s e) :
    Kept o (s.next svc e) := by
  cases e with
  | start op =>
    unfold System.next
    dsimp only
    split
    · exact hk
    · rename_i store hbegin
      have hne : ∀ {id' op' p'}, s.threads.load id' = some (op', p') → id' < s.count :=
        fun hload => hk.begun _ _ _ hload
      refine hk.settle (Nat.le_succ _) (Nat.lt_succ_self _) ?_ ?_ ?_ ?_
      · exact o.begin_inv s.count op s.store store hk.inv hbegin
      · exact o.begin_sound s.count op s.store store hk.inv hbegin
      · intro id' op' p' hload _
        exact o.begin_rely s.count op s.store store hk.inv hbegin id' op' (hne hload)
          (hpermitted id' op' p' hload).1
      · exact fun id' op' p' hload _ => hpermitted id' op' p' hload
  | turn id c =>
    unfold System.next
    dsimp only
    split
    · rename_i op r next hload
      split
      · rename_i store x hserve
        have hwait := hk.waiting id op _ hload
        have hbegun := hk.begun id op _ hload
        obtain ⟨hinv, hguar, hsound⟩ := hwait.sound s.count s.store hbegun hk.inv
          (o.rely_refl id op s.store) c store x (hpermitted op r next hload) hserve
        have hsettle := hk.settle (Nat.le_refl _) hbegun hinv hsound
          (fun id' op' p' hload' hne => o.guar_rely id op id' op' s.store store (Ne.symm hne)
            (hk.compatible id op _ id' op' p' hload hload' (Ne.symm hne)) hguar)
          (fun id' op' p' hload' hne =>
            ⟨hk.compatible id op _ id' op' p' hload hload' (Ne.symm hne),
              hk.compatible id' op' p' id op _ hload' hload hne⟩)
        exact hsettle
      · exact hk
    · exact hk
  | restart =>
    have hnone : ∀ {P : Prop} {id op p},
        (∅ : GoMap ℕ (Op × Process Req Resp α)).load id = some (op, p) → P := by
      intro P id op p hload
      cases (GoMap.load_empty id).symm.trans hload
    exact ⟨o.restart_inv s.count s.store hk.inv, fun _ _ _ hload => hnone hload,
      fun _ _ _ hload => hnone hload, fun _ _ _ _ _ _ hload => hnone hload, hk.finished⟩

theorem store_settle {id : ℕ} {op : Op} {store : σ} (p : Process Req Resp α) :
    (s.settle id op store p).store = store := by
  cases p <;> rfl

theorem Kept.turn_guar {id : ℕ} {c : C} (hk : Kept o s) (hpermitted : Permitted o s (.turn id c)) :
    (s.next svc (.turn id c)).store = s.store ∨ ∃ op p, s.threads.load id = some (op, p) ∧
      o.guar id op s.store (s.next svc (.turn id c)).store := by
  unfold System.next
  dsimp only
  split
  · rename_i op r next hload
    split
    · rename_i store x hserve
      obtain ⟨-, hguar, -⟩ := (hk.waiting id op _ hload).sound s.count s.store
        (hk.begun id op _ hload) hk.inv (o.rely_refl id op s.store) c store x
        (hpermitted op r next hload) hserve
      rw [store_settle]
      exact Or.inr ⟨op, _, hload, hguar⟩
    · exact Or.inl rfl
  · exact Or.inl rfl

theorem kept_initial {store : σ} (h : o.inv 0 store) :
    Kept o (System.initial store : System Req Resp α σ Op) := by
  have hnone : ∀ {P : Prop} {id op p},
      (∅ : GoMap ℕ (Op × Process Req Resp α)).load id = some (op, p) → P := by
    intro P id op p hload
    cases (GoMap.load_empty id).symm.trans hload
  exact ⟨h, fun _ _ _ hload => hnone hload, fun _ _ _ hload => hnone hload,
    fun _ _ _ _ _ _ hload => hnone hload, fun f hf => by cases hf⟩

theorem kept_run (o : Outline svc) {store : σ} (h : o.inv 0 store) {events : List (Event C Op)}
    (hpermitted : Runs.Along (System.next svc) (Permitted o)
      (System.initial store : System Req Resp α σ Op) events) :
    Runs.Through (System.next svc) (Kept o)
      (System.initial store : System Req Resp α σ Op) events :=
  Runs.Along.through (fun _ hk => hk) (fun _ _ hk hevent => hk.next hevent) (kept_initial h)
    hpermitted

theorem finished_settle {id : ℕ} {op : Op} {store : σ} {p : Process Req Resp α}
    {f : Finished α σ Op} (h : f ∈ (s.settle id op store p).finished) :
    f ∈ s.finished ∨ f.store = (s.settle id op store p).store := by
  cases p with
  | done a =>
    rcases List.mem_cons.mp h with rfl | h
    · exact Or.inr rfl
    · exact Or.inl h
  | ask r next => exact Or.inl h

theorem finished_next {e : Event C Op} {f : Finished α σ Op} (h : f ∈ (s.next svc e).finished) :
    f ∈ s.finished ∨ f.store = (s.next svc e).store := by
  cases e with
  | start op =>
    unfold System.next at h ⊢
    dsimp only at h ⊢
    split at h
    · exact Or.inl h
    · exact finished_settle (s := { s with count := s.count + 1 }) h
  | turn id c =>
    unfold System.next at h ⊢
    dsimp only at h ⊢
    split at h
    · split at h
      · exact finished_settle h
      · exact Or.inl h
    · exact Or.inl h
  | restart => exact Or.inl h

variable {kept : Finished α σ Op → σ → Prop}

structure Lasting (o : Outline svc) (kept : Finished α σ Op → σ → Prop) : Prop where
  post : ∀ f, o.post f.id f.op f.result f.store → kept f f.store
  begins : ∀ n op s t f, svc.begin n op s = some t → kept f s → kept f t
  guar : ∀ id op s t f, o.guar id op s t → kept f s → kept f t
  restart : ∀ s f, kept f s → kept f (svc.restart s)

theorem Lasting.next {e : Event C Op} {f : Finished α σ Op} (h : Lasting o kept) (hk : Kept o s)
    (hpermitted : Permitted o s e) (hf : kept f s.store) : kept f (s.next svc e).store := by
  cases e with
  | start op =>
    unfold System.next
    dsimp only
    split
    · exact hf
    · rename_i store hbegin
      rw [store_settle]
      exact h.begins s.count op s.store store f hbegin hf
  | turn id c =>
    rcases hk.turn_guar hpermitted with hsame | ⟨op, p, -, hguar⟩
    · rw [hsame]
      exact hf
    · exact h.guar id op s.store _ f hguar hf
  | restart => exact h.restart s.store f hf

theorem Lasting.run (h : Lasting o kept) {store : σ} (hinv : o.inv 0 store)
    {events : List (Event C Op)}
    (hpermitted : Runs.Along (System.next svc) (Permitted o)
      (System.initial store : System Req Resp α σ Op) events) :
    Runs.Through (System.next svc) (fun s => Kept o s ∧ ∀ f ∈ s.finished, kept f s.store)
      (System.initial store : System Req Resp α σ Op) events := by
  refine Runs.Along.through (fun _ hs => hs) ?_ ⟨kept_initial hinv, fun f hf => by cases hf⟩
    hpermitted
  rintro s e ⟨hk, hall⟩ hevent
  have hnext := hk.next hevent
  refine ⟨hnext, ?_⟩
  intro f hf
  rcases finished_next hf with hold | hnew
  · exact h.next hk hevent (hall f hold)
  · rw [← hnew]
    exact h.post f (hnext.finished f hf)

end Interleaving
