import RenoP.Proxy.Stream

/-!
# Whole responses in the proxy cache

While a stream is read its file has what the client has, as long as nothing fails. `Close` keeps the
file only after the end of the body.
-/

namespace RenoP.Proxy

open SlashPath (Path)
open RenoP.Index (FileIndex FileInfo)

variable {cfg : StreamConfig} {body : Bytes} {target : Option Bytes} {index : FileIndex}
  {s : Stream}

structure Reading (cfg : StreamConfig) (body : Bytes) (index : FileIndex) (s : Stream) : Prop where
  /-- A probe beyond the limit loses bytes, and ends the copy. -/
  split : ∃ lost, s.delivered ++ lost ++ s.rest = body ∧
    (lost ≠ [] → s.success = false ∧ 0 < cfg.maxSize ∧ cfg.maxSize ≤ s.bytesRead)
  bytesRead : s.bytesRead = s.delivered.length
  limited : 0 < cfg.maxSize → s.bytesRead ≤ cfg.maxSize
  copied : s.success = true → s.tmpFile = true ∧ s.temp = some s.delivered ∧
    s.bytesWritten = s.delivered.length ∧ s.failed = false
  eof : s.readEOF = true → s.rest = []
  permits : s.permits = if s.permitOnce = true ∧ cfg.permit = true then 1 else 0
  open' : s.closeOnce = false
  kept : s.tmpKeep = false
  untouched : s.index = index ∧ s.unlocked = [] ∧ s.reserved = 0 ∧ s.finished = []

theorem reading_create (cfg : StreamConfig) (body : Bytes) (created : Bool)
    (target : Option Bytes) (index : FileIndex) :
    Reading cfg body index (createProxyStream body created target index) where
  split := ⟨[], rfl, fun h => absurd rfl h⟩
  bytesRead := rfl
  limited := fun h => Int.le_of_lt h
  copied := by
    intro h
    cases created with
    | true => exact ⟨rfl, rfl, rfl, rfl⟩
    | false => cases h
  eof := nofun
  permits := rfl
  open' := rfl
  kept := rfl
  untouched := ⟨rfl, rfl, rfl, rfl⟩

theorem bodyRead_cases (s : Stream) (size : ℕ) (r : ReadInput) :
    ∃ data err rest failed, s.bodyRead size r = (data, err, { s with rest, failed }) ∧
      data ++ rest = s.rest ∧ data.length ≤ size ∧ (err = some .eof → rest = []) ∧
      (failed = s.failed ∨ err = some .upstream) := by
  have hsplit := List.take_append_drop (min size r.sent) s.rest
  have hdrop : s.rest.drop (s.rest.take (min size r.sent)).length =
      s.rest.drop (min size r.sent) := by
    rw [List.length_take]
    rcases Nat.le_total (min size r.sent) s.rest.length with hle | hle
    · rw [Nat.min_eq_left hle]
    · rw [Nat.min_eq_right hle, List.drop_length, List.drop_of_length_le hle]
  have hlength : (s.rest.take (min size r.sent)).length ≤ size := by
    rw [List.length_take]
    omega
  unfold Stream.bodyRead
  dsimp only
  rw [hdrop]
  cases r.outcome with
  | more =>
    refine ⟨_, _, _, s.failed, rfl, hsplit, hlength, nofun, Or.inl rfl⟩
  | eof =>
    refine ⟨_, _, _, s.failed, rfl, hsplit, hlength, fun heof => ?_, Or.inl rfl⟩
    by_contra hrest
    rw [if_neg hrest] at heof
    cases heof
  | error =>
    refine ⟨_, _, _, true, rfl, hsplit, hlength, nofun, Or.inr rfl⟩

theorem fetch_cases (cfg : StreamConfig) (s : Stream) (r : ReadInput) :
    ∃ data err probe rest bytesRead failed,
      s.fetch cfg r = (data, err, { s with rest, bytesRead, failed }) ∧
        data ++ probe ++ rest = s.rest ∧ bytesRead = s.bytesRead + data.length ∧
        (0 < cfg.maxSize → s.bytesRead ≤ cfg.maxSize → bytesRead ≤ cfg.maxSize) ∧
        (probe ≠ [] → data = [] ∧ err = some .responseTooLarge ∧ 0 < cfg.maxSize ∧
          cfg.maxSize ≤ s.bytesRead) ∧
        (err = some .eof → rest = []) ∧
        (failed = s.failed ∨ ∃ e, err = some e ∧ e ≠ .eof) := by
  unfold Stream.fetch
  by_cases hlimit : 0 < cfg.maxSize
  · rw [if_pos hlimit]
    dsimp only
    by_cases hfull : cfg.maxSize - s.bytesRead ≤ 0
    · rw [if_pos hfull]
      obtain ⟨probe, err, rest, failed, hread, hsplit, -, heof, hfailed⟩ := bodyRead_cases s 1 r
      rw [hread]
      dsimp only
      refine ⟨[], _, probe, rest, s.bytesRead, failed, rfl, hsplit, (add_zero _).symm,
        fun _ hle => hle, fun hprobe => ⟨rfl, if_neg hprobe, hlimit, by omega⟩, ?_, ?_⟩
      · split_ifs
        · exact heof
        · nofun
      · split_ifs
        · exact hfailed.imp_right fun herr => ⟨_, herr, by decide⟩
        · exact Or.inr ⟨_, rfl, by decide⟩
    · rw [if_neg hfull]
      obtain ⟨data, err, rest, failed, hread, hsplit, hlength, heof, hfailed⟩ :=
        bodyRead_cases s (min r.size (cfg.maxSize - s.bytesRead).toNat) r
      rw [hread]
      dsimp only
      refine ⟨data, err, [], rest, _, failed, rfl, ?_, rfl, ?_, fun h => absurd rfl h, heof, ?_⟩
      · rw [List.append_nil]
        exact hsplit
      · intro _ _
        omega
      · exact hfailed.imp_right fun herr => ⟨_, herr, by decide⟩
  · rw [if_neg hlimit]
    obtain ⟨data, err, rest, failed, hread, hsplit, hlength, heof, hfailed⟩ :=
      bodyRead_cases s r.size r
    rw [hread]
    refine ⟨data, err, [], rest, _, failed, rfl, ?_, rfl, fun h => absurd h hlimit,
      fun h => absurd rfl h, heof, ?_⟩
    · rw [List.append_nil]
      exact hsplit
    · exact hfailed.imp_right fun herr => ⟨_, herr, by decide⟩

theorem copy_cases (s : Stream) (data : Bytes) (r : ReadInput)
    (hfile : s.success = true → s.tmpFile = true) :
    ∃ temp bytesWritten success writeErr,
      s.copy data r = { s with temp, bytesWritten, success, writeErr } ∧
        (success = true → s.success = true ∧ temp = s.temp.map (· ++ data) ∧
          bytesWritten = s.bytesWritten + data.length) := by
  unfold Stream.copy
  dsimp only
  split_ifs with hcopy halloc hfail hshort
  · exact ⟨s.temp, s.bytesWritten, false, _, rfl, nofun⟩
  · exact ⟨_, _, false, _, rfl, nofun⟩
  · exact ⟨_, _, false, _, rfl, nofun⟩
  · have hall : data.take r.written = data := by
      apply List.take_of_length_le
      rw [List.length_take] at hshort
      omega
    refine ⟨_, _, s.success, s.writeErr, rfl, fun hsuccess => ⟨hsuccess, ?_, ?_⟩⟩
    · rw [hall]
    · rw [hall]
  · refine ⟨s.temp, s.bytesWritten, s.success, s.writeErr, rfl, fun hsuccess => ?_⟩
    have hnil : data = [] := by
      by_contra hdata
      exact hcopy ⟨hdata, hfile hsuccess, hsuccess⟩
    subst hnil
    refine ⟨hsuccess, ?_, (add_zero _).symm⟩
    cases s.temp with
    | none => rfl
    | some file => exact congrArg some (List.append_nil file).symm

theorem releasePermit_cases (cfg : StreamConfig) (s : Stream)
    (h : s.permits = if s.permitOnce = true ∧ cfg.permit = true then 1 else 0) :
    s.releasePermit cfg =
      { s with permitOnce := true, permits := if cfg.permit then 1 else 0 } := by
  unfold Stream.releasePermit
  split_ifs with honce hpermit hpermit
  · rw [honce, if_pos ⟨rfl, hpermit⟩] at h
    rw [← honce, ← h]
  · rw [honce, if_neg fun hboth => hpermit hboth.2] at h
    rw [← honce, ← h]
  · rw [if_neg fun hboth => honce hboth.1] at h
    rw [h]
  · rw [if_neg fun hboth => honce hboth.1] at h
    rw [h]

theorem reading_read (h : Reading cfg body index s) (r : ReadInput) :
    Reading cfg body index (s.read cfg r).2 := by
  obtain ⟨data, err, probe, rest, bytesRead, failed, hfetch, hsplit, hbytes, hlimited, hprobe,
    heof, hfailed⟩ := fetch_cases cfg s r
  obtain ⟨temp, bytesWritten, success, writeErr, hcopy, hcopied⟩ :=
    copy_cases { s with rest, bytesRead, failed } data r fun hsuccess => (h.copied hsuccess).1
  obtain ⟨lost, hbody, hlost⟩ := h.split
  -- At the limit nothing but the probe is taken.
  have hfull : lost ≠ [] → data = [] := by
    intro hne
    obtain ⟨-, hlimit, hreached⟩ := hlost hne
    have hle := hlimited hlimit (h.limited hlimit)
    exact List.length_eq_zero_iff.mp (by omega)
  have hsplit' : s.delivered ++ data ++ (lost ++ probe) ++ rest = body := by
    rw [← hbody, ← hsplit]
    by_cases hne : lost = []
    · rw [hne]
      simp only [List.nil_append, List.append_nil, List.append_assoc]
    · rw [hfull hne]
      simp only [List.nil_append, List.append_nil, List.append_assoc]
  have hstep : ∀ success' readEOF permitOnce permits,
      (success' = true → success = true ∧ probe = [] ∧ failed = s.failed) →
      (readEOF = true → rest = []) →
      (permits = if permitOnce = true ∧ cfg.permit = true then 1 else 0) →
      Reading cfg body index
        { s with
          rest, bytesRead, failed, temp, bytesWritten, writeErr, readEOF, permitOnce, permits
          success := success'
          delivered := s.delivered ++ data } := by
    intro success' readEOF permitOnce permits hsuccess hend hpermits
    refine ⟨⟨lost ++ probe, hsplit', fun hne => ?_⟩, ?_, fun hlimit => ?_, fun htrue => ?_, hend,
      hpermits, h.open', h.kept, h.untouched⟩
    · have hreached : 0 < cfg.maxSize ∧ cfg.maxSize ≤ s.bytesRead := by
        by_cases hl : lost = []
        · rw [hl, List.nil_append] at hne
          exact (hprobe hne).2.2
        · exact (hlost hl).2
      refine ⟨?_, hreached.1, by dsimp only; omega⟩
      rw [← Bool.not_eq_true]
      intro htrue
      obtain ⟨hsucc, hnil, -⟩ := hsuccess htrue
      rw [hnil, List.append_nil] at hne
      have hfalse := (hlost hne).1
      rw [(hcopied hsucc).1] at hfalse
      cases hfalse
    · dsimp only
      rw [hbytes, h.bytesRead, List.length_append]
      omega
    · exact hlimited hlimit (h.limited hlimit)
    · obtain ⟨hsucc, -, hsame⟩ := hsuccess htrue
      obtain ⟨hbefore, htemp, hwritten⟩ := hcopied hsucc
      obtain ⟨hfile, hcopy, hcount, hok⟩ := h.copied hbefore
      dsimp only at htemp hwritten ⊢
      refine ⟨hfile, ?_, ?_, hsame.trans hok⟩
      · rw [htemp, hcopy]
        rfl
      · rw [hwritten, hcount, List.length_append]
        omega
  have hquiet : err ≠ some .responseTooLarge → probe = [] := by
    intro hne
    by_contra hnil
    exact hne (hprobe hnil).2.1
  unfold Stream.read
  rw [hfetch]
  dsimp only
  rw [hcopy]
  cases herr : err with
  | none =>
    refine hstep success s.readEOF s.permitOnce s.permits (fun htrue => ⟨htrue, ?_, ?_⟩)
      (fun hend => ?_) h.permits
    · exact hquiet (by rw [herr]; nofun)
    · refine hfailed.resolve_right ?_
      rintro ⟨e, he, -⟩
      rw [herr] at he
      cases he
    · have hnil := h.eof hend
      rw [← hsplit] at hnil
      exact (List.append_eq_nil_iff.mp hnil).2
  | some e =>
    have hreleased : (if cfg.permit = true then 1 else 0) =
        if true = true ∧ cfg.permit = true then 1 else 0 := by simp
    cases e with
    | eof =>
      dsimp only
      rw [releasePermit_cases]
      · refine hstep success true true _ (fun htrue => ⟨htrue, ?_, ?_⟩) (fun _ => heof herr)
          hreleased
        · exact hquiet (by rw [herr]; decide)
        · refine hfailed.resolve_right ?_
          rintro ⟨e, he, hne⟩
          rw [herr] at he
          exact hne (Option.some.inj he).symm
      · exact h.permits
    | _ =>
      dsimp only
      rw [releasePermit_cases]
      · refine hstep false s.readEOF true _ nofun (fun hend => ?_) hreleased
        have hnil := h.eof hend
        rw [← hsplit] at hnil
        exact (List.append_eq_nil_iff.mp hnil).2
      · exact h.permits

theorem reading_reads (inputs : List ReadInput) :
    ∀ {s : Stream}, Reading cfg body index s → Reading cfg body index (s.reads cfg inputs) := by
  induction inputs with
  | nil =>
    intro s h
    exact h
  | cons r inputs ih =>
    intro s h
    exact ih (reading_read h r)

structure Delivers (cfg : StreamConfig) (body : Bytes) (s : Stream) : Prop where
  start : s.delivered <+: body
  limited : 0 < cfg.maxSize → (s.delivered.length : ℤ) ≤ cfg.maxSize

theorem delivers_of_reading (h : Reading cfg body index s) : Delivers cfg body s where
  start := by
    obtain ⟨lost, hsplit, -⟩ := h.split
    exact ⟨lost ++ s.rest, by rw [← List.append_assoc, hsplit]⟩
  limited := by
    rw [← h.bytesRead]
    exact h.limited

structure Whole (cfg : StreamConfig) (body : Bytes) (s : Stream) : Prop where
  delivered : s.delivered = body
  eof : s.readEOF = true
  failed : s.failed = false
  limit : 0 < cfg.maxSize → (body.length : ℤ) ≤ cfg.maxSize
  announced : cfg.expectedSize < 0 ∨ (body.length : ℤ) = cfg.expectedSize

/-- The stored copy is at the target path, or where `onSuccess` has moved it. -/
def Stream.Stores (s : Stream) (file : Bytes) : Prop :=
  s.target = some file ∨ s.target = none ∧ s.remote = some file

def Stream.Added (s : Stream) (index : FileIndex) : Prop :=
  ∃ p info, s.index.files.load p = some info ∧ index.files.load p ≠ some info

/-- A request that ends with an outcome: what is released, and what is left. -/
structure Ended (cfg : StreamConfig) (body : Bytes) (index : FileIndex) (file : Bytes)
    (s : Stream) (success : Bool) : Prop where
  delivers : Delivers cfg body s
  closed : s.closeOnce = true
  unlocked : s.unlocked = if cfg.inFlightMgr then [success] else []
  reserved : s.reserved ≤ 1
  finished : s.finished = List.replicate s.reserved success
  permits : s.permits = if cfg.permit then 1 else 0
  temp : s.temp = none
  stored : success = true → Whole cfg body s ∧ s.Stores file
  refused : success = false → ¬s.Added index

theorem whole_of_reading (h : Reading cfg body index s) (hwhole : s.whole cfg = true) :
    Whole cfg body s ∧ s.tmpFile = true ∧ s.temp = some body := by
  unfold Stream.whole at hwhole
  rw [Bool.and_eq_true, Bool.and_eq_true, Bool.or_eq_true, decide_eq_true_eq,
    decide_eq_true_eq] at hwhole
  obtain ⟨⟨hsuccess, heof⟩, hannounced⟩ := hwhole
  obtain ⟨lost, hsplit, hlost⟩ := h.split
  obtain ⟨hfile, htemp, hwritten, hfailed⟩ := h.copied hsuccess
  have hnil : lost = [] := by
    by_contra hne
    rw [hsuccess] at hlost
    cases (hlost hne).1
  rw [hnil, h.eof heof, List.append_nil, List.append_nil] at hsplit
  have hlength : s.bytesRead = body.length := by rw [h.bytesRead, hsplit]
  refine ⟨⟨hsplit, heof, hfailed, fun hlimit => ?_, ?_⟩, hfile, ?_⟩
  · rw [← hlength]
    exact h.limited hlimit
  · rw [hwritten, hsplit] at hannounced
    exact hannounced
  · rw [htemp, hsplit]

def CloseInput.leaves (c : CloseInput) (body : Bytes) : Bytes :=
  match c.closeFile with
  | none => body
  | some kept => body.take kept

theorem closeFile_cases (s : Stream) (c : CloseInput) :
    ∃ tmpFile temp closeErr, s.closeFile c = { s with tmpFile, temp, closeErr } ∧
      (s.tmpFile = true → temp = s.temp.map c.leaves) := by
  unfold Stream.closeFile CloseInput.leaves
  split_ifs with hfile
  · cases c.closeFile with
    | none => exact ⟨false, s.temp, s.closeErr, rfl, fun _ => Option.map_id.symm ▸ rfl⟩
    | some kept => exact ⟨false, _, _, rfl, fun _ => rfl⟩
  · exact ⟨s.tmpFile, s.temp, s.closeErr, rfl, fun htrue => absurd htrue hfile⟩

/-- The state in which `Close` decides about the copy. -/
structure Closing (cfg : StreamConfig) (body : Bytes) (index : FileIndex) (s : Stream) :
    Prop where
  delivers : Delivers cfg body s
  closed : s.closeOnce = true
  permits : s.permits = if s.permitOnce = true ∧ cfg.permit = true then 1 else 0
  kept : s.tmpKeep = false
  untouched : s.index = index ∧ s.unlocked = [] ∧ s.reserved = 0 ∧ s.finished = []

theorem ended_release {s' : Stream} {success : Bool} {file : Bytes}
    (hdelivers : Delivers cfg body s') (hclosed : s'.closeOnce = true)
    (hpermits : s'.permits = if s'.permitOnce = true ∧ cfg.permit = true then 1 else 0)
    (hunlocked : s'.unlocked = []) (hreserved : s'.reserved ≤ 1)
    (hfinished : s'.finished = List.replicate s'.reserved success) (htemp : s'.temp = none)
    (hstored : success = true → Whole cfg body s' ∧ s'.Stores file)
    (hrefused : success = false → ¬s'.Added index) :
    Ended cfg body index file (s'.release cfg success) success := by
  unfold Stream.release
  rw [releasePermit_cases]
  · refine ⟨⟨hdelivers.start, hdelivers.limited⟩, hclosed, ?_, hreserved, hfinished, rfl, htemp,
      fun htrue => ?_, hrefused⟩
    · dsimp only
      rw [hunlocked]
      rfl
    · obtain ⟨hwhole, hstores⟩ := hstored htrue
      exact ⟨⟨hwhole.delivered, hwhole.eof, hwhole.failed, hwhole.limit, hwhole.announced⟩, hstores⟩
  · exact hpermits

theorem not_added_of_same (h : s.index = index) : ¬s.Added index := by
  rintro ⟨p, info, hload, hne⟩
  rw [h] at hload
  exact hne hload

theorem ended_refused (h : Closing cfg body index s) (file : Bytes) :
    Ended cfg body index file (s.removeTemp.release cfg false) false := by
  obtain ⟨hindex, hunlocked, hreserved, hfinished⟩ := h.untouched
  unfold Stream.removeTemp
  rw [if_neg (by rw [h.kept]; decide)]
  refine ended_release ⟨h.delivers.start, h.delivers.limited⟩ h.closed h.permits hunlocked ?_ ?_ rfl
    nofun fun _ => not_added_of_same hindex
  · exact Nat.le_trans (Nat.le_of_eq hreserved) (Nat.zero_le 1)
  · dsimp only
    rw [hreserved, hfinished]
    rfl

theorem not_added_of_removed {s' : Stream} {p : Path} {info : FileInfo}
    (h : s'.index = (((index.ensureParentDirs p).insertFile p info).removeFile p)) :
    ¬s'.Added index := by
  rintro ⟨q, info', hload, hne⟩
  rw [h, FileIndex.removeFile, FileIndex.dropFile_load] at hload
  split_ifs at hload with hq
  have hbefore := FileIndex.insertFile_load_ne hq hload
  rw [FileIndex.ensureParentDirs_files] at hbefore
  exact hne hbefore

theorem commit_cases {file : Bytes} (htemp : s.temp = some file) (hkept : s.tmpKeep = false)
    (hindex : s.index = index) (c : CloseInput) :
    ∃ success target remote after temp tmpKeep closeErr,
      s.commit cfg c =
        (success, { s with target, remote, temp, tmpKeep, closeErr, index := after }) ∧
        (tmpKeep = true → temp = none) ∧
        (success = true → target = some file ∨ target = none ∧ remote = some file) ∧
        (success = false → ∀ s' : Stream, s'.index = after → ¬s'.Added index) := by
  unfold Stream.commit
  by_cases hcommit : c.commit = true
  · rw [if_pos hcommit]
    dsimp only
    rw [htemp]
    cases hpost : c.onSuccess with
    | none =>
      exact ⟨true, some file, s.remote, _, none, true, s.closeErr, rfl, fun _ => rfl,
        fun _ => Or.inl rfl, nofun⟩
    | some post =>
      cases post with
      | kept =>
        exact ⟨true, some file, s.remote, _, none, true, s.closeErr, rfl, fun _ => rfl,
          fun _ => Or.inl rfl, nofun⟩
      | moved =>
        exact ⟨true, none, some file, _, none, true, s.closeErr, rfl, fun _ => rfl,
          fun _ => Or.inr ⟨rfl, rfl⟩, nofun⟩
      | failed =>
        refine ⟨false, none, s.remote, _, none, true, s.closeErr, rfl, fun _ => rfl, nofun,
          fun _ s' hafter => ?_⟩
        unfold Stream.insertEntry at hafter
        by_cases hfile : cfg.fileIndex = true
        · rw [if_pos hfile, if_pos hfile, hindex] at hafter
          exact not_added_of_removed hafter
        · rw [if_neg hfile, if_neg hfile] at hafter
          exact not_added_of_same (hafter.trans hindex)
  · rw [if_neg hcommit]
    refine ⟨false, s.target, s.remote, s.index, s.temp, s.tmpKeep, _, rfl, fun htrue => ?_, nofun,
      fun _ s' hafter => not_added_of_same (hafter.trans hindex)⟩
    rw [hkept] at htrue
    cases htrue

theorem commit_ended {file : Bytes} (h : Closing cfg body index s) (hwhole : Whole cfg body s)
    (htemp : s.temp = some file) {reserved : ℕ} (hreserved : reserved ≤ 1) (c : CloseInput) :
    ∃ success s', { s with reserved }.commit cfg c = (success, s') ∧
      s'.removeTemp.finished = s.finished ∧
      Ended cfg body index file
        ({ s'.removeTemp with finished := List.replicate reserved success }.release cfg success)
        success := by
  obtain ⟨hindex, hunlocked, -, hfinished⟩ := h.untouched
  obtain ⟨success, target, remote, after, temp, tmpKeep, closeErr, hcommit, hgone, hstored,
    hrefused⟩ := commit_cases (s := { s with reserved }) htemp h.kept hindex c
  refine ⟨success, _, hcommit, ?_⟩
  have hremoved : Stream.removeTemp
      { s with reserved, target, remote, index := after, temp, tmpKeep, closeErr } =
      { s with reserved, target, remote, index := after, temp := none, tmpKeep, closeErr } := by
    unfold Stream.removeTemp
    split_ifs with hkeep
    · rw [hgone hkeep]
    · rfl
  rw [hremoved]
  refine ⟨rfl, ended_release ⟨h.delivers.start, h.delivers.limited⟩ h.closed h.permits hunlocked
    hreserved rfl rfl (fun htrue => ?_) fun hfalse => hrefused hfalse _ rfl⟩
  exact ⟨⟨hwhole.delivered, hwhole.eof, hwhole.failed, hwhole.limit, hwhole.announced⟩,
    hstored htrue⟩

theorem ended_close (h : Reading cfg body index s) (c : CloseInput) :
    ∃ success, Ended cfg body index (c.leaves body) (s.close cfg c) success := by
  have hdelivers := delivers_of_reading h
  unfold Stream.close
  rw [if_neg (by rw [h.open']; decide)]
  dsimp only
  by_cases hwhole : s.whole cfg = true
  · obtain ⟨hall, hfile, htemp⟩ := whole_of_reading h hwhole
    rw [hwhole]
    unfold Stream.closeBody
    rw [if_pos rfl]
    by_cases hbody : c.closeBody = true
    · rw [if_pos hbody]
      dsimp only
      obtain ⟨tmpFile, temp, closeErr, hclose, hleaves⟩ := closeFile_cases
        { s with closeOnce := true, closeErr := none } c
      have hclosing : Closing cfg body index
          { s with closeOnce := true, tmpFile, temp, closeErr } :=
        ⟨⟨hdelivers.start, hdelivers.limited⟩, rfl, h.permits, h.kept, h.untouched⟩
      have htemp' : temp = some (c.leaves body) := by
        rw [hleaves hfile, htemp]
        rfl
      have hall' : Whole cfg body { s with closeOnce := true, tmpFile, temp, closeErr } :=
        ⟨hall.delivered, hall.eof, hall.failed, hall.limit, hall.announced⟩
      rw [hclose, if_pos rfl]
      obtain ⟨-, -, hreserved, hfinished⟩ := h.untouched
      cases c.reserve with
      | refused => exact ⟨false, ended_refused hclosing _⟩
      | absent =>
        obtain ⟨success, s', hcommit, hsame, hended⟩ :=
          commit_ended hclosing hall' htemp' (Nat.zero_le 1) c
        refine ⟨success, ?_⟩
        dsimp only
        rw [hreserved, hcommit]
        dsimp only
        rw [List.replicate_zero, ← hfinished, ← hsame] at hended
        exact hended
      | granted =>
        obtain ⟨success, s', hcommit, hsame, hended⟩ :=
          commit_ended hclosing hall' htemp' (Nat.le_refl 1) c
        refine ⟨success, ?_⟩
        dsimp only
        rw [hreserved, hcommit]
        dsimp only
        rw [hsame, hfinished]
        exact hended
    · rw [if_neg hbody]
      dsimp only
      obtain ⟨tmpFile, temp, closeErr, hclose, -⟩ := closeFile_cases
        { s with closeOnce := true, closeErr := some .closeBody } c
      rw [hclose, if_neg Bool.false_ne_true]
      refine ⟨false, ended_refused ?_ _⟩
      exact ⟨⟨hdelivers.start, hdelivers.limited⟩, rfl, h.permits, h.kept, h.untouched⟩
  · rw [Bool.not_eq_true] at hwhole
    rw [hwhole]
    unfold Stream.closeBody
    rw [if_neg Bool.false_ne_true]
    dsimp only
    obtain ⟨tmpFile, temp, closeErr, hclose, -⟩ := closeFile_cases
      { s with closeOnce := true, closeErr := s.writeErr <|> s.closeErr } c
    rw [hclose, if_neg Bool.false_ne_true]
    refine ⟨false, ended_refused ?_ _⟩
    exact ⟨⟨hdelivers.start, hdelivers.limited⟩, rfl, h.permits, h.kept, h.untouched⟩

theorem ended_again {file : Bytes} {success : Bool} (inputs : List CloseInput) :
    ∀ {s : Stream}, Ended cfg body index file s success →
      Ended cfg body index file (s.closes cfg inputs) success := by
  induction inputs with
  | nil =>
    intro s h
    exact h
  | cons c inputs ih =>
    intro s h
    have hsame : s.close cfg c = s := by
      unfold Stream.close
      rw [if_pos h.closed]
    unfold Stream.closes
    rw [List.foldl_cons, hsame]
    exact ih h

/-- What a request may leave at any moment: its client has a prefix of the body, a path gets an
entry only with the file of a whole response, and once it is closed everything is released. -/
structure CachesWhole (cfg : StreamConfig) (body : Bytes) (index : FileIndex) (s : Stream) :
    Prop where
  delivers : Delivers cfg body s
  added : s.Added index → Whole cfg body s ∧ s.Stores body
  opened : s.closeOnce = false → ¬s.Added index ∧ s.unlocked = [] ∧ s.finished = []
  closed : s.closeOnce = true → ∃ success, Ended cfg body index body s success

def proxied (cfg : StreamConfig) (body : Bytes) (created : Bool) (target : Option Bytes)
    (index : FileIndex) (reads : List ReadInput) (closes : List CloseInput) : Stream :=
  ((createProxyStream body created target index).reads cfg reads).closes cfg closes

def lossyRequest (body : Bytes) (kept : ℕ) : Stream :=
  proxied { targetPath := ['f'], expectedSize := -1, maxSize := 0 } body true none
    RenoP.Index.newFileIndex
    [{ size := body.length, sent := body.length, outcome := .eof, written := body.length }]
    [{ closeFile := some kept }]

theorem lossyRequest_stores {kept : ℕ} (h : kept < body.length) :
    (lossyRequest body kept).target = some (body.take kept) ∧
      (lossyRequest body kept).index =
        (RenoP.Index.newFileIndex.ensureParentDirs ['f']).insertFile ['f']
          { size := (body.take kept).length } := by
  have hne : body ≠ [] := by
    intro hnil
    rw [hnil] at h
    exact Nat.not_lt_zero _ h
  have hread : (createProxyStream body true none RenoP.Index.newFileIndex).reads
      { targetPath := ['f'], expectedSize := -1, maxSize := 0 }
      [{ size := body.length, sent := body.length, outcome := .eof, written := body.length }] =
      { createProxyStream body true none RenoP.Index.newFileIndex with
        rest := []
        bytesRead := body.length
        bytesWritten := body.length
        readEOF := true
        temp := some body
        permitOnce := true
        permits := 1
        delivered := body } := by
    simp [Stream.reads, Stream.read, Stream.fetch, Stream.bodyRead, Stream.copy, createProxyStream,
      Stream.releasePermit, hne]
  unfold lossyRequest proxied
  rw [hread]
  constructor
  · simp [Stream.closes, Stream.close, Stream.whole, Stream.closeBody, Stream.closeFile,
      Stream.commit, Stream.removeTemp, Stream.release, Stream.releasePermit, createProxyStream]
  · simp [Stream.closes, Stream.close, Stream.whole, Stream.closeBody, Stream.closeFile,
      Stream.commit, Stream.removeTemp, Stream.release, Stream.releasePermit, createProxyStream,
      Stream.insertEntry]

theorem lossyRequest_added {kept : ℕ} (h : kept < body.length) :
    (lossyRequest body kept).Added RenoP.Index.newFileIndex := by
  have hload := FileIndex.insertFile_load_self { size := (body.take kept).length }
    (show (RenoP.Index.newFileIndex.ensureParentDirs ['f']).isBlocked ['f'] = false by decide)
  rw [← (lossyRequest_stores h).2] at hload
  refine ⟨['f'], _, hload, fun hsome => ?_⟩
  cases hsome

/-- Half of a response is in the cache, and its index entry says that it is there. -/
theorem lossyRequest_halved :
    ¬CachesWhole { targetPath := ['f'], expectedSize := -1, maxSize := 0 } [1, 2]
      RenoP.Index.newFileIndex (lossyRequest [1, 2] 1) := by
  intro h
  rcases (h.added (lossyRequest_added (by decide))).2 with hstored | ⟨hnone, -⟩
  · rw [(lossyRequest_stores (by decide)).1] at hstored
    cases hstored
  · rw [(lossyRequest_stores (by decide)).1] at hnone
    cases hnone

/-- The cache has whole responses only, for every request over a body, when closing the temp file
loses none of its bytes. -/
theorem cachesWhole_iff (body : Bytes) (closeFile : Option ℕ) :
    (∀ (cfg : StreamConfig) (created : Bool) (target : Option Bytes) (index : FileIndex)
      (reads : List ReadInput) (closes : List CloseInput),
      (∀ c ∈ closes, c.closeFile = closeFile) →
      CachesWhole cfg body index (proxied cfg body created target index reads closes)) ↔
    ∀ kept, closeFile = some kept → body.length ≤ kept := by
  constructor
  · intro h kept hkept
    by_contra hshort
    have htarget := (lossyRequest_stores (Nat.not_le.mp hshort)).1
    have hcaches := h { targetPath := ['f'], expectedSize := -1, maxSize := 0 } true none
      RenoP.Index.newFileIndex
      [{ size := body.length, sent := body.length, outcome := .eof, written := body.length }]
      [{ closeFile := some kept }] (fun c hc => by rw [List.mem_singleton.mp hc, hkept])
    rcases (hcaches.added (lossyRequest_added (Nat.not_le.mp hshort))).2 with hstored | ⟨hnone, -⟩
    · have hsome := htarget.symm.trans hstored
      have hlength := congrArg List.length (Option.some.inj hsome)
      rw [List.length_take] at hlength
      omega
    · have hsome := htarget.symm.trans hnone
      cases hsome
  · intro hkept cfg created target index reads closes hcloses
    have hreading := reading_reads reads (reading_create cfg body created target index)
    unfold proxied
    cases closes with
    | nil =>
      obtain ⟨hindex, hunlocked, -, hfinished⟩ := hreading.untouched
      have hnot : ¬Stream.Added _ index := not_added_of_same hindex
      refine ⟨delivers_of_reading hreading, fun hadded => absurd hadded hnot,
        fun _ => ⟨hnot, hunlocked, hfinished⟩, fun hclosed => ?_⟩
      exact Bool.noConfusion (hclosed.symm.trans hreading.open')
    | cons c closes =>
      have hleaves : c.leaves body = body := by
        unfold CloseInput.leaves
        rw [hcloses c (List.mem_cons_self ..)]
        cases closeFile with
        | none => rfl
        | some kept => exact List.take_of_length_le (hkept kept rfl)
      obtain ⟨success, hended⟩ := ended_close hreading c
      rw [hleaves] at hended
      have hagain := ended_again closes hended
      refine ⟨hagain.delivers, fun hadded => ?_, fun hopen => ?_, fun _ => ⟨success, hagain⟩⟩
      · cases success with
        | true => exact hagain.stored rfl
        | false => exact absurd hadded (hagain.refused rfl)
      · exact Bool.noConfusion (hagain.closed.symm.trans hopen)

end RenoP.Proxy
