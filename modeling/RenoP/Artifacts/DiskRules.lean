import RenoP.Artifacts.DiskSteps

/-!
# Steps that change the disk

One rule for each: what it keeps, and what its call knows afterwards.
-/

namespace RenoP.Artifacts

open Process

variable {P : Type} {hash : Hash} {s t u : Store P} {n id : ℕ} {op : Op P}
  {f g : Inodes (Name P)} {name : Name P}

structure Under (name : Name P) (f g : Inodes (Name P)) : Prop where
  names : ∀ q, q ≠ name → g.names q = f.names q
  bytes : ∀ q i, q ≠ name → f.names q = some i → g.bytes i = f.bytes i
  allocated : g.Allocated

theorem Under.read (h : Under name f g) {q : Name P} (hq : q ≠ name) : g.read q = f.read q := by
  unfold Inodes.read
  rw [h.names q hq]
  cases hi : f.names q with
  | none => rfl
  | some i => rw [Option.map_some, Option.map_some, h.bytes q i hq hi]

variable [DecidableEq P] {strict : Prop} {α : Type} {post : α → Store P → Prop}

theorem under_link {candidate : P} (ha : f.Allocated)
    (h : f.link (.path candidate) (.linked id) = some g) : Under (.linked id) f g := by
  have hallocated := ha.link h
  obtain ⟨i, -, -, rfl⟩ := Inodes.link_cases h
  exact ⟨fun q hq => Function.update_of_ne hq _ _, fun _ _ _ _ => rfl, hallocated⟩

theorem under_remove (ha : f.Allocated) (name : Name P) : Under name f (f.remove name) :=
  ⟨fun _ hq => Function.update_of_ne hq _ _, fun _ _ _ _ => rfl, ha.remove name⟩

theorem createNew_cases {mode : ℕ} (h : createNew f name mode = some g) :
    f.names name = none ∧ g = (f.openCreate name mode).2 := by
  unfold createNew at h
  split_ifs at h with hfree
  · exact ⟨hfree, (Option.some.inj h).symm⟩

theorem under_create {mode : ℕ} (ha : f.Allocated) (h : createNew f name mode = some g) :
    Under name f g := by
  obtain ⟨hfree, rfl⟩ := createNew_cases h
  refine ⟨fun q hq => Inodes.names_openCreate hq mode, ?_, ha.openCreate name mode⟩
  intro q i _ hi
  unfold Inodes.openCreate
  rw [hfree]
  exact Function.update_of_ne (Nat.ne_of_lt (ha q i hi)) _ _

omit [DecidableEq P] in
theorem names_fill (data : Bytes) : (fill f name data).names = f.names := by
  unfold fill
  split <;> rfl

omit [DecidableEq P] in
theorem under_fill (ha : f.Allocated) (hname : f.Unshared name) (data : Bytes) :
    Under name f (fill f name data) := by
  refine ⟨fun q _ => congrFun (names_fill data) q, ?_, ?_⟩
  · intro q i hq hi
    unfold fill
    split
    · rename_i j hj
      have hij : i ≠ j := by
        rintro rfl
        exact hq (hname i hj q hi)
      exact Function.update_of_ne hij _ _
    · rfl
  · intro q i hi
    rw [names_fill] at hi
    have hlt := ha q i hi
    unfold fill
    split <;> exact hlt

omit [DecidableEq P] in
theorem read_fill {i : ℕ} (hi : f.names name = some i) (data : Bytes) :
    (fill f name data).read name = some data := by
  unfold fill
  rw [hi]
  simp only [Inodes.read, hi, Option.map_some, Function.update_self]

omit [DecidableEq P] in
theorem Owns.unborn (hown : Owns id op name) (hid : id < n) {id' : ℕ} (hid' : n ≤ id')
    {q : Name P} (hq : q = .linked id' ∨ q = .content id' ∨ q = .copy id') : q ≠ name := by
  rintro rfl
  rcases hq with rfl | rfl | rfl
  · exact absurd hown (by unfold Owns; omega)
  · exact absurd hown (by unfold Owns; omega)
  · exact absurd hown (by unfold Owns; omega)

theorem under_step (hown : Owns id op name) (hid : id < n) (hinv : Inv strict n s)
    (h : Under name s.disk g) (hunshared : ∀ q, Fresh q → g.Unshared q)
    (hsole : strict → ∀ p, s.lastMutable p = true → g.Unshared (.path p)) :
    Inv strict n { s with disk := g } ∧ Guar id op s { s with disk := g } ∧
      Moved id op (· = name) s { s with disk := g } := by
  have hpath : ∀ p, g.read (.path p) = s.disk.read (.path p) :=
    fun p => h.read (Ne.symm (hown.ne_path p))
  refine ⟨⟨h.allocated, ?_, hinv.unwritten, ?_, hunshared, hsole⟩, ⟨?_, ?_, fun _ _ => rfl, rfl,
    fun _ hkept => hkept, fun p _ => hpath p⟩, ⟨?_, rfl, fun hkept => hkept, fun p _ => hpath p⟩⟩
  · intro id' hid' q hq
    exact (h.names q (hown.unborn hid hid' hq)).trans (hinv.unborn id' hid' q hq)
  · exact fun p => (hpath p).trans (hinv.reads p)
  · intro q hq _
    refine h.names q ?_
    rintro rfl
    exact hq hown
  · intro q i hq hi
    refine h.bytes q i ?_ hi
    rintro rfl
    exact hq hown
  · exact fun q _ hq => ⟨h.names q hq, fun i hi => h.bytes q i hq hi⟩

theorem sound_link {candidate : P} {k : Bool → Process (Request P) Response α}
    (hnext : ∀ x t, Moved id op (· = .linked id) s t → t.by id = s.by id →
      (x = false → Rely id op s t) → Call.Sound hash strict id op post (k x) t) :
    Call.Sound hash strict id op post (ask (.link candidate) >>= k) s := by
  refine Sound.step (fun (x : Bool) t => Moved id op (· = .linked id) s t ∧
    t.by id = s.by id ∧ (x = false → Rely id op s t)) ?_ fun x t h => hnext x t h.1 h.2.1 h.2.2
  intro n s' hid hinv hrely c t x hfine hserve
  cases c with
  | ok =>
    obtain ⟨disk, hlink, heq⟩ := Option.map_eq_some_iff.mp hserve
    cases heq
    have hunder := under_link hinv.allocated hlink
    have hne : ∀ {q : Name P}, q ≠ .path candidate → Fresh q → disk.Unshared q :=
      fun hq hfresh => (hinv.unshared _ hfresh).link hlink hq (hfresh.ne_linked id)
    obtain ⟨hkept, hguar, hmoved⟩ := under_step
      (show Owns id op (.linked id) from rfl) hid hinv hunder
      (fun q hq => hne (hq.ne_path candidate) hq) (fun hstrict p hp => by
        have hother : (Name.path p : Name P) ≠ .path candidate := by
          intro heq
          cases heq
          exact absurd ((hfine hstrict).symm.trans hp) (by decide)
        exact (hinv.sole hstrict p hp).link hlink hother (by intro h; cases h))
    exact ⟨hkept, hguar, hrely.moved.trans hmoved, hrely.writes, fun h => by cases h⟩
  | failed =>
    cases hserve
    exact ⟨hinv, (Quiet.refl s').guar, hrely.moved, hrely.writes, fun _ => hrely⟩
  | missing => cases hserve
  | short m => cases hserve

theorem sound_remove {k : Bool → Process (Request P) Response α} (hown : Owns id op name)
    (hnext : ∀ x t, Moved id op (· = name) s t → t.by id = s.by id →
      (t.disk.names name = none ∨ id ∈ t.kept) → Call.Sound hash strict id op post (k x) t) :
    Call.Sound hash strict id op post (remove name >>= k) s := by
  refine Sound.step (fun (_ : Bool) t => Moved id op (· = name) s t ∧
    t.by id = s.by id ∧ (t.disk.names name = none ∨ id ∈ t.kept)) ?_
    fun x t h => hnext x t h.1 h.2.1 h.2.2
  intro n s' hid hinv hrely c t x _ hserve
  cases c with
  | ok =>
    cases hserve
    have hunder := under_remove hinv.allocated name
    obtain ⟨hkept, hguar, hmoved⟩ := under_step hown hid hinv hunder
      (fun q hq => (hinv.unshared q hq).remove name)
      (fun hstrict p hp => (hinv.sole hstrict p hp).remove name)
    exact ⟨hkept, hguar, hrely.moved.trans hmoved, hrely.writes,
      Or.inl (Function.update_self ..)⟩
  | failed =>
    cases hserve
    refine ⟨⟨hinv.allocated, hinv.unborn, hinv.unwritten, hinv.reads, hinv.unshared, hinv.sole⟩,
      ⟨fun _ _ _ => rfl, fun _ _ _ _ => rfl, fun _ _ => rfl, rfl,
        fun _ hmem => List.mem_cons_of_mem _ hmem, fun _ _ => rfl⟩,
      hrely.moved.trans ⟨fun q _ _ => Same.refl s' q, rfl,
        fun hmem => List.mem_cons_of_mem _ hmem, fun _ _ => rfl⟩,
      hrely.writes, Or.inr (List.mem_cons_self ..)⟩
  | missing => cases hserve
  | short m => cases hserve

theorem sound_create {mode : ℕ} {k : Bool → Process (Request P) Response α}
    (hown : Owns id op name)
    (hnext : ∀ x t, Moved id op (· = name) s t → t.by id = s.by id →
      (x = true → ∃ i, t.disk.names name = some i) →
      Call.Sound hash strict id op post (k x) t) :
    Call.Sound hash strict id op post (ask (.create name mode) >>= k) s := by
  refine Sound.step (fun (x : Bool) t => Moved id op (· = name) s t ∧
    t.by id = s.by id ∧ (x = true → ∃ i, t.disk.names name = some i)) ?_
    fun x t h => hnext x t h.1 h.2.1 h.2.2
  intro n s' hid hinv hrely c t x _ hserve
  cases c with
  | ok =>
    obtain ⟨disk, hcreate, heq⟩ := Option.map_eq_some_iff.mp hserve
    cases heq
    have hunder := under_create hinv.allocated hcreate
    obtain ⟨hfree, hdisk⟩ := createNew_cases hcreate
    have hunshared : ∀ {q : Name P}, s'.disk.Unshared q → disk.Unshared q := by
      intro q hq
      rw [hdisk]
      exact hq.openCreate hinv.allocated hfree mode
    obtain ⟨hkept, hguar, hmoved⟩ := under_step hown hid hinv hunder
      (fun q hq => hunshared (hinv.unshared q hq))
      (fun hstrict p hp => hunshared (hinv.sole hstrict p hp))
    refine ⟨hkept, hguar, hrely.moved.trans hmoved, hrely.writes, fun _ => ⟨s'.disk.next, ?_⟩⟩
    rw [hdisk]
    unfold Inodes.openCreate
    rw [hfree]
    exact Function.update_self ..
  | failed =>
    cases hserve
    exact ⟨hinv, (Quiet.refl s').guar, hrely.moved, hrely.writes, fun h => by cases h⟩
  | missing => cases hserve
  | short m => cases hserve

theorem fill_step (data : Bytes) (hown : Owns id op name) (hfresh : Fresh name) (hid : id < n)
    (hinv : Inv strict n s) :
    Inv strict n { s with disk := fill s.disk name data } ∧
      Guar id op s { s with disk := fill s.disk name data } ∧
      Moved id op (· = name) s { s with disk := fill s.disk name data } := by
  have hunshared : ∀ {q : Name P}, s.disk.Unshared q → (fill s.disk name data).Unshared q := by
    intro q hq
    unfold Inodes.Unshared
    rw [names_fill]
    exact hq
  exact under_step hown hid hinv
    (under_fill hinv.allocated (hinv.unshared name hfresh) data)
    (fun q hq => hunshared (hinv.unshared q hq))
    (fun hstrict p hp => hunshared (hinv.sole hstrict p hp))

theorem sound_write {data : Bytes} {k : Bool → Process (Request P) Response α}
    (hown : Owns id op name) (hfresh : Fresh name) (hopen : ∃ i, s.disk.names name = some i)
    (hnext : ∀ x t, Moved id op (· = name) s t → t.by id = s.by id →
      (x = true → t.disk.read name = some data) → Call.Sound hash strict id op post (k x) t) :
    Call.Sound hash strict id op post (ask (.write name data) >>= k) s := by
  refine Sound.step (fun (x : Bool) t => Moved id op (· = name) s t ∧
    t.by id = s.by id ∧ (x = true → t.disk.read name = some data)) ?_
    fun x t h => hnext x t h.1 h.2.1 h.2.2
  intro n s' hid hinv hrely c t x _ hserve
  obtain ⟨i, hi⟩ := hopen
  have hi' : s'.disk.names name = some i := (hrely.names name hown).1.trans hi
  cases c with
  | ok =>
    cases hserve
    obtain ⟨hkept, hguar, hmoved⟩ := fill_step data hown hfresh hid hinv
    exact ⟨hkept, hguar, hrely.moved.trans hmoved, hrely.writes, fun _ => read_fill hi' data⟩
  | short m =>
    cases hserve
    obtain ⟨hkept, hguar, hmoved⟩ := fill_step (data.take m) hown hfresh hid hinv
    exact ⟨hkept, hguar, hrely.moved.trans hmoved, hrely.writes, fun h => by cases h⟩
  | missing => cases hserve
  | failed => cases hserve

theorem sound_copy {data : Bytes} {old : Name P} {inode : ℕ}
    {k : Bool → Process (Request P) Response α} (hown : Owns id op name) (hfresh : Fresh name)
    (hopen : ∃ i, s.disk.names name = some i) (hold : Owns id op old)
    (hinode : s.disk.names old = some inode) (hdata : s.disk.bytes inode = data)
    (hnext : ∀ x t, Moved id op (· = name) s t → t.by id = s.by id →
      (x = true → t.disk.read name = some data) → Call.Sound hash strict id op post (k x) t) :
    Call.Sound hash strict id op post (ask (.copy inode name) >>= k) s := by
  refine Sound.step (fun (x : Bool) t => Moved id op (· = name) s t ∧
    t.by id = s.by id ∧ (x = true → t.disk.read name = some data)) ?_
    fun x t h => hnext x t h.1 h.2.1 h.2.2
  intro n s' hid hinv hrely c t x _ hserve
  obtain ⟨i, hi⟩ := hopen
  have hi' : s'.disk.names name = some i := (hrely.names name hown).1.trans hi
  have hbytes : s'.disk.bytes inode = data := ((hrely.names old hold).2 inode hinode).trans hdata
  cases c with
  | ok =>
    cases hserve
    obtain ⟨hkept, hguar, hmoved⟩ :=
      fill_step (s'.disk.bytes inode) hown hfresh hid hinv
    refine ⟨hkept, hguar, hrely.moved.trans hmoved, hrely.writes, fun _ => ?_⟩
    rw [← hbytes]
    exact read_fill hi' _
  | short m =>
    cases hserve
    obtain ⟨hkept, hguar, hmoved⟩ :=
      fill_step ((s'.disk.bytes inode).take m) hown hfresh hid hinv
    exact ⟨hkept, hguar, hrely.moved.trans hmoved, hrely.writes, fun h => by cases h⟩
  | missing => cases hserve
  | failed => cases hserve

theorem last_removed {disk : Inodes (Name P)} (target p : P) :
    ({ s with disk := disk, writes := ⟨id, target, none, false⟩ :: s.writes } : Store P).last p =
      if target = p then some ⟨id, target, none, false⟩ else s.last p := by
  unfold Store.last
  rw [List.find?_cons]
  by_cases hp : target = p
  · rw [decide_eq_true hp, if_pos hp]
  · rw [decide_eq_false hp, if_neg hp]

theorem remove_step {target : P} (htarget : op.target = some target) (hid : id < n)
    (hinv : Inv strict n s) :
    let t : Store P :=
      { s with
        disk := s.disk.remove (.path target)
        writes := ⟨id, target, none, false⟩ :: s.writes }
    Inv strict n t ∧ Guar id op s t ∧ Moved id op (fun _ => False) s t := by
  intro t
  have hunder := under_remove hinv.allocated (.path target : Name P)
  have hby : ∀ id', id' ≠ id → t.by id' = s.by id' := by
    intro id' hne
    unfold Store.by
    exact List.filter_cons_of_neg (by rw [decide_eq_true_eq]; exact Ne.symm hne)
  have hread : ∀ p, target ≠ p → t.disk.read (.path p) = s.disk.read (.path p) :=
    fun p hp => hunder.read fun heq => hp (Name.path.inj heq).symm
  refine ⟨⟨hunder.allocated, ?_, ?_, ?_, fun q hq => (hinv.unshared q hq).remove _, ?_⟩,
    ⟨fun q _ hpath => hunder.names q (hpath target), fun _ _ _ _ => rfl, hby, rfl,
      fun _ hkept => hkept, fun p hp => hread p fun heq => hp (heq ▸ htarget)⟩,
    ⟨fun q hq _ => ⟨hunder.names q (hq.ne_path target), fun _ _ => rfl⟩, rfl,
      fun hkept => hkept, ?_⟩⟩
  · intro id' hid' q hq
    have hpath : q ≠ .path target := by
      rintro rfl
      rcases hq with hq | hq | hq <;> cases hq
    exact (hunder.names q hpath).trans (hinv.unborn id' hid' q hq)
  · exact fun id' hid' => (hby id' (by omega)).trans (hinv.unwritten id' hid')
  · intro p
    unfold Store.contents
    rw [last_removed]
    by_cases hp : target = p
    · subst hp
      rw [if_pos rfl]
      show (Option.map _ (Function.update s.disk.names _ none _)) = none
      rw [Function.update_self, Option.map_none]
    · rw [if_neg hp, hread p hp]
      exact hinv.reads p
  · intro hstrict p hp
    unfold Store.lastMutable at hp
    rw [last_removed] at hp
    split_ifs at hp
    · cases hp
    · exact (hinv.sole hstrict p hp).remove _
  · rintro p rfl
    cases htarget

theorem sound_removePath {target : P} {k : Bool → Process (Request P) Response α}
    (htarget : op.target = some target)
    (hnext : ∀ x t, Moved id op (fun _ => False) s t →
      t.by id = (if x then ⟨id, target, none, false⟩ :: s.by id else s.by id) →
      Call.Sound hash strict id op post (k x) t) :
    Call.Sound hash strict id op post (ask (.removePath target) >>= k) s := by
  refine Sound.step (fun (x : Bool) t => Moved id op (fun _ => False) s t ∧
    t.by id = if x then ⟨id, target, none, false⟩ :: s.by id else s.by id) ?_
    fun x t h => hnext x t h.1 h.2
  intro n s' hid hinv hrely c t x _ hserve
  cases c with
  | ok =>
    cases hserve
    obtain ⟨hkept, hguar, hmoved⟩ := remove_step htarget hid hinv
    refine ⟨hkept, hguar, hrely.moved.trans hmoved, ?_⟩
    rw [if_pos rfl, ← hrely.writes]
    exact List.filter_cons_of_pos (decide_eq_true rfl)
  | failed =>
    cases hserve
    exact ⟨hinv, (Quiet.refl s').guar, hrely.moved, hrely.writes⟩
  | missing => cases hserve
  | short m => cases hserve

def installedBy (id : ℕ) (target : P) (data : Bytes) : Kind → List (Write P)
  | .commit => [⟨id, target, some data, false⟩]
  | .commitMutable => [⟨id, target, some data, true⟩]
  | .reuse => []

omit [DecidableEq P] in
theorem noteRename_eq {kind : Kind} {old : Name P} {target : P} {data : Bytes}
    (hdata : s.disk.read old = some data) :
    noteRename id s old target kind = installedBy id target data kind ++ s.writes := by
  unfold noteRename installedBy
  rw [hdata]
  cases kind <;> rfl

omit [DecidableEq P] in
theorem filter_installedBy {target : P} {data : Bytes} (kind : Kind) {id' : ℕ} (hne : id' ≠ id) :
    ((installedBy id target data kind).filter fun w => decide (w.id = id')) = [] := by
  rw [List.filter_eq_nil_iff]
  intro w hw hid
  rw [decide_eq_true_eq] at hid
  have hmine : w.id = id := by
    cases kind with
    | commit =>
      cases List.mem_singleton.mp hw
      rfl
    | commitMutable =>
      cases List.mem_singleton.mp hw
      rfl
    | reuse => cases hw
  exact hne (hid.symm.trans hmine)

theorem names_rename {old : Name P} {target : P} (h : f.rename old (.path target) = some g)
    {q : Name P} (hold : q ≠ old) (htarget : q ≠ .path target) : g.names q = f.names q := by
  obtain ⟨i, -, ⟨-, rfl⟩ | ⟨-, rfl⟩⟩ := Inodes.rename_cases h
  · rfl
  · dsimp only
    rw [Function.update_of_ne hold, Function.update_of_ne htarget]

theorem bytes_rename {old : Name P} {target : P} (h : f.rename old (.path target) = some g) :
    g.bytes = f.bytes := by
  obtain ⟨i, -, ⟨-, rfl⟩ | ⟨-, rfl⟩⟩ := Inodes.rename_cases h <;> rfl

theorem unshared_rename {old : Name P} {target : P} (hne : old ≠ .path target)
    (h : f.rename old (.path target) = some g) (hold : f.Unshared old) : g.Unshared old := by
  obtain ⟨i, hi, ⟨hsame, rfl⟩ | ⟨-, rfl⟩⟩ := Inodes.rename_cases h
  · exact absurd (hold i hi _ hsame) (Ne.symm hne)
  · exact Inodes.unshared_of_absent (Function.update_self ..)

theorem last_installed {disk : Inodes (Name P)} (target : P) (data : Bytes) (kind : Kind) (p : P) :
    ({ s with disk := disk, writes := installedBy id target data kind ++ s.writes } : Store P).last p
      = if kind ≠ .reuse ∧ target = p then (installedBy id target data kind).head? else s.last p := by
  unfold Store.last installedBy
  cases kind with
  | reuse => rfl
  | commit =>
    show List.find? _ (_ :: s.writes) = _
    rw [List.find?_cons]
    by_cases hp : target = p
    · rw [decide_eq_true hp, if_pos ⟨by decide, hp⟩]
      rfl
    · rw [decide_eq_false hp, if_neg fun h => hp h.2]
  | commitMutable =>
    show List.find? _ (_ :: s.writes) = _
    rw [List.find?_cons]
    by_cases hp : target = p
    · rw [decide_eq_true hp, if_pos ⟨by decide, hp⟩]
      rfl
    · rw [decide_eq_false hp, if_neg fun h => hp h.2]

omit [DecidableEq P] in
theorem head_installedBy {target : P} {data : Bytes} {kind : Kind} (hkind : kind ≠ .reuse) :
    (installedBy id target data kind).head? =
      some ⟨id, target, some data, decide (kind = .commitMutable)⟩ := by
  cases kind with
  | commit => rfl
  | commitMutable => rfl
  | reuse => exact absurd rfl hkind

/-- What `rename` needs to give the target the bytes of a file of the call. -/
structure Installs (op : Op P) (kind : Kind) (old : Name P) (target : P) (data : Bytes)
    (s : Store P) : Prop where
  read : s.disk.read old = some data
  writes : kind ≠ .reuse → op.target = some target
  fresh : kind = .commitMutable → Fresh old
  reuse : kind = .reuse → op = .reuseExisting target ∧ s.disk.read (.path target) = some data

omit [DecidableEq P] in
theorem Installs.later {kind : Kind} {old : Name P} {target : P} {data : Bytes}
    (h : Installs op kind old target data s) (hown : Owns id op old) (hrely : Rely id op s t) :
    Installs op kind old target data t where
  read := (hrely.names old hown).read.trans h.read
  writes := h.writes
  fresh := h.fresh
  reuse hkind := by
    obtain ⟨hop, hread⟩ := h.reuse hkind
    exact ⟨hop, (hrely.target target hop).trans hread⟩

theorem install_step {kind : Kind} {old : Name P} {target : P} {data : Bytes}
    {disk : Inodes (Name P)} (hown : Owns id op old) (hid : id < n) (hinv : Inv strict n s)
    (h : Installs op kind old target data s)
    (hrename : s.disk.rename old (.path target) = some disk)
    (hfine : kind = .reuse → strict → s.lastMutable target = true → s.disk.Unshared old) :
    let t : Store P :=
      { s with disk := disk, writes := installedBy id target data kind ++ s.writes }
    Inv strict n t ∧ Guar id op s t ∧ Moved id op (· = old) s t := by
  intro t
  have hne : old ≠ .path target := hown.ne_path target
  obtain ⟨hread, -, hother⟩ := Inodes.read_rename hrename (Ne.symm hne)
  have hnames : ∀ {q : Name P}, q ≠ old → (∀ p, q ≠ .path p) →
      disk.names q = s.disk.names q :=
    fun hold hpath => names_rename hrename hold (hpath target)
  have hbytes : disk.bytes = s.disk.bytes := bytes_rename hrename
  have hby : ∀ id', id' ≠ id → t.by id' = s.by id' := by
    intro id' hne'
    unfold Store.by
    show List.filter _ (_ ++ s.writes) = _
    rw [List.filter_append, filter_installedBy kind hne', List.nil_append]
  have hsame : ∀ p, target ≠ p → disk.read (.path p) = s.disk.read (.path p) :=
    fun p hp => hother _ (Ne.symm (hown.ne_path p)) fun heq => hp (Name.path.inj heq).symm
  have hreuse : kind = .reuse → disk.read (.path target) = s.disk.read (.path target) :=
    fun hkind => (hread.symm.trans h.read).trans (h.reuse hkind).2.symm
  refine ⟨⟨hinv.allocated.rename hrename, ?_, ?_, ?_, ?_, ?_⟩,
    ⟨fun q hq hpath => hnames (fun heq => hq (heq ▸ hown)) hpath,
      fun q i _ _ => congrFun hbytes i, hby, rfl, fun _ hkept => hkept, ?_⟩,
    ⟨fun q hq hold => ⟨hnames hold hq.ne_path, fun i _ => congrFun hbytes i⟩, rfl,
      fun hkept => hkept, ?_⟩⟩
  · intro id' hid' q hq
    have hpath : ∀ p, q ≠ .path p := by
      rintro p rfl
      rcases hq with hq | hq | hq <;> cases hq
    exact (hnames (hown.unborn hid hid' hq) hpath).trans (hinv.unborn id' hid' q hq)
  · exact fun id' hid' => (hby id' (by omega)).trans (hinv.unwritten id' hid')
  · intro p
    show disk.read (.path p) = t.contents p
    unfold Store.contents
    rw [last_installed]
    by_cases hp : target = p
    · subst hp
      by_cases hkind : kind = .reuse
      · rw [if_neg fun h => h.1 hkind, hreuse hkind]
        exact hinv.reads target
      · rw [if_pos ⟨hkind, rfl⟩, head_installedBy hkind, ← hread, h.read]
    · rw [if_neg fun h => hp h.2, hsame p hp]
      exact hinv.reads p
  · intro q hq
    by_cases hold : q = old
    · rw [hold] at hq ⊢
      exact unshared_rename hne hrename (hinv.unshared old hq)
    · exact (hinv.unshared q hq).rename hrename hold (hq.ne_path target)
  · intro hstrict p hp
    unfold Store.lastMutable at hp
    rw [last_installed] at hp
    by_cases htarget : target = p
    · subst htarget
      by_cases hkind : kind = .reuse
      · rw [if_neg fun h => h.1 hkind] at hp
        exact (hfine hkind hstrict hp).rename_target hrename (Ne.symm hne)
      · rw [if_pos ⟨hkind, rfl⟩, head_installedBy hkind, Option.any_some, decide_eq_true_eq] at hp
        exact (hinv.unshared old (h.fresh hp)).rename_target hrename (Ne.symm hne)
    · rw [if_neg fun h => htarget h.2] at hp
      exact (hinv.sole hstrict p hp).rename hrename (Ne.symm (hown.ne_path p))
        fun heq => htarget (Name.path.inj heq).symm
  · intro p hp
    by_cases htarget : target = p
    · subst htarget
      by_cases hkind : kind = .reuse
      · exact hreuse hkind
      · exact absurd (h.writes hkind) hp
    · exact hsame p htarget
  · intro p hop
    by_cases hkind : kind = .reuse
    · have heq := (h.reuse hkind).1.symm.trans hop
      cases heq
      exact hreuse hkind
    · rw [hop] at h
      cases h.writes hkind

theorem sound_rename {kind : Kind} {old : Name P} {target : P} {data : Bytes}
    {k : Renamed → Process (Request P) Response α} (hown : Owns id op old)
    (h : Installs op kind old target data s)
    (hok : ∀ t, Moved id op (· = old) s t → t.by id = installedBy id target data kind ++ s.by id →
      Call.Sound hash strict id op post (k .ok) t)
    (hfailed : ∀ x t, x ≠ .ok → Rely id op s t → Call.Sound hash strict id op post (k x) t) :
    Call.Sound hash strict id op post (ask (.rename kind old target) >>= k) s := by
  refine Sound.step (fun (x : Renamed) t =>
    (x = .ok ∧ Moved id op (· = old) s t ∧
      t.by id = installedBy id target data kind ++ s.by id) ∨ (x ≠ .ok ∧ Rely id op s t)) ?_ ?_
  · intro n s' hid hinv hrely c t x hfine hserve
    cases c with
    | ok =>
      obtain ⟨disk, hrename, heq⟩ := Option.map_eq_some_iff.mp hserve
      have h' := h.later hown hrely
      rw [noteRename_eq h'.read] at heq
      cases heq
      have hmutable : kind = .reuse → strict → s'.lastMutable target = true →
          s'.disk.Unshared old := by
        rintro rfl hstrict
        exact hfine hstrict
      obtain ⟨hkept, hguar, hmoved⟩ := install_step hown hid hinv h' hrename hmutable
      refine ⟨hkept, hguar, Or.inl ⟨rfl, hrely.moved.trans hmoved, ?_⟩⟩
      rw [← hrely.writes]
      unfold Store.by
      show List.filter _ (_ ++ s'.writes) = _
      rw [List.filter_append]
      cases kind <;> simp [installedBy]
    | missing =>
      cases hserve
      exact ⟨hinv, (Quiet.refl s').guar, Or.inr ⟨by decide, hrely⟩⟩
    | failed =>
      cases hserve
      exact ⟨hinv, (Quiet.refl s').guar, Or.inr ⟨by decide, hrely⟩⟩
    | short m => cases hserve
  · rintro x t (⟨rfl, hmoved, hby⟩ | ⟨hx, hrely⟩)
    · exact hok t hmoved hby
    · exact hfailed x t hx hrely

end RenoP.Artifacts
