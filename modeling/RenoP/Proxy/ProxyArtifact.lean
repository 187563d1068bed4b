import RenoP.Proxy.Stream

/-!
# A download from the mirrors (internal/service/proxy/mod.go)

`ProxyArtifact` holds three things: the lock of its path, which its caller has taken, the gate of
the repository, and a permit of the client semaphore for each mirror that it asks.
-/

namespace RenoP.Proxy

open SlashPath (Path)
open RenoP.Index (FileIndex)

structure Held where
  entered : ℕ := 0
  left : ℕ := 0
  acquired : ℕ := 0
  returned : ℕ := 0
  unlocked : List Bool := []

def Held.acquireMutation (h : Held) : Held := { h with entered := h.entered + 1 }

def Held.releaseMutation (h : Held) : Held := { h with left := h.left + 1 }

def Held.acquirePermit (h : Held) : Held := { h with acquired := h.acquired + 1 }

def Held.releasePermit (h : Held) : Held := { h with returned := h.returned + 1 }

def Held.unlockPath (h : Held) (success : Bool) : Held :=
  { h with unlocked := h.unlocked ++ [success] }

structure RepositoryMutationReadCloser where
  cfg : StreamConfig
  stream : Stream
  once : Bool := false
  released : ℕ := 0

inductive Use where
  | read (r : ReadInput)
  | close (c : CloseInput)

def Use.isClose : Use → Bool
  | .read _ => false
  | .close _ => true

def RepositoryMutationReadCloser.next (r : RepositoryMutationReadCloser) :
    Use → RepositoryMutationReadCloser
  | .read input => { r with stream := (r.stream.read r.cfg input).2 }
  | .close input =>
    { r with
      stream := r.stream.close r.cfg input
      once := true
      released := if r.once then r.released else r.released + 1 }

inductive ProxyError where
  | demoReadOnly
  | badRequest
  | immutable
  | unauthorized
  | requestEntityTooLarge
  | insufficientStorage
  | forbidden (reason : String)
  | notFound
deriving DecidableEq, Repr

structure Reply where
  statusCode : ℕ
  body : Response
  /-- Whether there is room for the announced length. -/
  allocate : Bool := true
  /-- Whether there is room for the data of a small body, and `saveToDiskAndS3` succeeds. -/
  saved : Bool := true
  created : Bool := true

structure Mirror where
  negativeCache : Bool := false
  cacheTTLSecs : ℕ := 0
  blocked : Option String := none
  mirrorURL : String
  newRequest : Bool := true
  /-- The outcome of `Authorization.Apply`, unless the mirror has none. -/
  authorization : Option Bool := none
  /-- Whether the semaphore has room before the timeout. -/
  semaphore : Bool := true
  client : Bool := true
  reply : Option Reply

structure ProxyCall where
  localFilePath : Path
  sanitized : Bool := true
  mutable : Bool := true
  /-- The outcome of `AuthorizeMirrorWrite`, unless there is none. -/
  authorizeMirrorWrite : Option Bool := none
  mirrors : List Mirror
  responseLimit : ℤ
  /-- The stored file and the index when the stream is made. -/
  target : Option Bytes := none
  index : FileIndex

structure ProxyProgress where
  held : Held
  lastBlockedReason : String := ""
  shouldNegativeCache : Bool := false
  negativeTTL : ℕ := 3600

inductive ProxyResult where
  | error (err : ProxyError)
  | buffered (data : Bytes)
  | stream (reader : RepositoryMutationReadCloser)

structure ProxyOutcome where
  result : ProxyResult
  held : Held
  /-- The lifetime that `HandleNegativeCache` was called with. -/
  negativeCached : Option ℕ := none

def ProxyCall.streamConfig (call : ProxyCall) (reply : Reply) : StreamConfig where
  targetPath := call.localFilePath
  expectedSize := reply.body.contentLength
  maxSize := call.responseLimit

def Held.refused (h : Held) (err : ProxyError) : ProxyOutcome :=
  ⟨.error err, (h.unlockPath false).releaseMutation, none⟩

def ProxyCall.serve (call : ProxyCall) (h : Held) (reply : Reply) : ProxyOutcome :=
  if reply.body.contentLength > call.responseLimit then
    h.releasePermit.refused .requestEntityTooLarge
  else if reply.body.contentLength ≥ 0 ∧ reply.allocate = false then
    h.releasePermit.refused .insufficientStorage
  else
    match reply.body.selectBody with
    | .small data =>
      ⟨.buffered data, (h.releasePermit.unlockPath reply.saved).releaseMutation, none⟩
    | .streamed body _ =>
      let stream := createProxyStream body reply.created call.target call.index
      ⟨.stream { cfg := call.streamConfig reply, stream }, h, none⟩

def ProxyCall.tryMirror (call : ProxyCall) (p : ProxyProgress) (m : Mirror) :
    Except ProxyOutcome ProxyProgress :=
  match m.blocked with
  | some reason => .ok { p with lastBlockedReason := reason }
  | none =>
    if m.mirrorURL = "" then .ok p
    else if m.newRequest = false then .ok p
    else if m.authorization = some false then .ok p
    else if m.semaphore = false then .ok p
    else
      let held := p.held.acquirePermit
      if m.client = false then .ok { p with held := held.releasePermit }
      else
        match m.reply with
        | none => .ok { p with held := held.releasePermit }
        | some reply =>
          let missing := decide (reply.statusCode = 404) && m.negativeCache
          if 200 ≤ reply.statusCode ∧ reply.statusCode < 300 then
            .error (call.serve held reply)
          else
            .ok
              { p with
                held := held.releasePermit
                shouldNegativeCache := p.shouldNegativeCache || missing
                negativeTTL := if missing then m.cacheTTLSecs else p.negativeTTL }

def ProxyProgress.finish (p : ProxyProgress) : ProxyOutcome where
  result :=
    if p.lastBlockedReason ≠ "" then .error (.forbidden p.lastBlockedReason) else .error .notFound
  held := (p.held.unlockPath false).releaseMutation
  negativeCached := if p.shouldNegativeCache then some p.negativeTTL else none

def ProxyCall.tryMirrors (call : ProxyCall) (p : ProxyProgress) : List Mirror → ProxyOutcome
  | [] => p.finish
  | m :: mirrors =>
    match call.tryMirror p m with
    | .error outcome => outcome
    | .ok p => call.tryMirrors p mirrors

def proxyArtifact (demo : Bool) (call : ProxyCall) : ProxyOutcome :=
  if demo then ⟨.error .demoReadOnly, {}, none⟩
  else
    let held := Held.acquireMutation {}
    if call.sanitized = false then held.refused .badRequest
    else if call.mutable = false then held.refused .immutable
    else if call.authorizeMirrorWrite = some false then held.refused .unauthorized
    else call.tryMirrors { held } call.mirrors

def Stream.holding (s : Stream) : Bool × ℕ × Bool × List Bool :=
  (s.permitOnce, s.permits, s.closeOnce, s.unlocked)

variable (cfg : StreamConfig) (s : Stream)

theorem holding_bodyRead (size : ℕ) (r : ReadInput) :
    (s.bodyRead size r).2.2.holding = s.holding := by
  unfold Stream.bodyRead
  cases r.outcome with
  | more => rfl
  | eof => rfl
  | error => rfl

theorem holding_fetch (r : ReadInput) : (s.fetch cfg r).2.2.holding = s.holding := by
  unfold Stream.fetch
  dsimp only
  by_cases hlimit : 0 < cfg.maxSize
  · rw [if_pos hlimit]
    by_cases hfull : cfg.maxSize - s.bytesRead ≤ 0
    · rw [if_pos hfull]
      exact holding_bodyRead s 1 r
    · rw [if_neg hfull]
      exact holding_bodyRead s _ r
  · rw [if_neg hlimit]
    exact holding_bodyRead s _ r

theorem holding_copy (data : Bytes) (r : ReadInput) : (s.copy data r).holding = s.holding := by
  unfold Stream.copy
  dsimp only
  split_ifs with hcopy hroom herr hshort
  · rfl
  · rfl
  · rfl
  · rfl
  · rfl

theorem holding_closeBody (success : Bool) (c : CloseInput) :
    (s.closeBody success c).2.holding = s.holding := by
  unfold Stream.closeBody
  split_ifs with hsuccess hclose
  · rfl
  · rfl
  · rfl

theorem holding_closeFile (c : CloseInput) : (s.closeFile c).holding = s.holding := by
  unfold Stream.closeFile
  split_ifs with hfile
  · cases c.closeFile with
    | none => rfl
    | some kept => rfl
  · rfl

theorem holding_commit (c : CloseInput) : (s.commit cfg c).2.holding = s.holding := by
  unfold Stream.commit
  dsimp only
  by_cases hcommit : c.commit = true
  · rw [if_pos hcommit]
    cases c.onSuccess with
    | none => rfl
    | some outcome =>
      cases outcome with
      | failed => rfl
      | kept => rfl
      | moved => rfl
  · rw [if_neg hcommit]
    rfl

theorem holding_removeTemp : s.removeTemp.holding = s.holding := by
  unfold Stream.removeTemp
  split_ifs with hkept
  · rfl
  · rfl

variable {cfg s}

structure Open (s : Stream) : Prop where
  permits : s.permits = if s.permitOnce then 1 else 0
  closeOnce : s.closeOnce = false
  unlocked : s.unlocked = []

structure Closed (s : Stream) : Prop where
  permitOnce : s.permitOnce = true
  permits : s.permits = 1
  closeOnce : s.closeOnce = true
  unlocked : s.unlocked.length = 1

theorem holding_inj {s' : Stream} (h : s'.holding = s.holding) :
    s'.permitOnce = s.permitOnce ∧ s'.permits = s.permits ∧ s'.closeOnce = s.closeOnce ∧
      s'.unlocked = s.unlocked :=
  (Prod.mk.inj h).imp_right fun h => (Prod.mk.inj h).imp_right fun h => Prod.mk.inj h

theorem Open.congr {s' : Stream} (h : Open s) (hsame : s'.holding = s.holding) : Open s' := by
  obtain ⟨honce, hpermits, hclose, hunlocked⟩ := holding_inj hsame
  refine ⟨?_, hclose.trans h.closeOnce, hunlocked.trans h.unlocked⟩
  rw [hpermits, honce]
  exact h.permits

theorem Closed.congr {s' : Stream} (h : Closed s) (hsame : s'.holding = s.holding) :
    Closed s' := by
  obtain ⟨honce, hpermits, hclose, hunlocked⟩ := holding_inj hsame
  exact ⟨honce.trans h.permitOnce, hpermits.trans h.permits, hclose.trans h.closeOnce,
    (congrArg List.length hunlocked).trans h.unlocked⟩

theorem open_createProxyStream (body : Bytes) (created : Bool) (target : Option Bytes)
    (index : FileIndex) : Open (createProxyStream body created target index) :=
  ⟨rfl, rfl, rfl⟩

theorem Open.releasePermit (h : Open s) (hpermit : cfg.permit = true) :
    Open (s.releasePermit cfg) := by
  unfold Stream.releasePermit
  by_cases honce : s.permitOnce = true
  · rw [if_pos honce]
    exact h
  · have hnone := h.permits
    rw [if_neg honce] at hnone
    rw [if_neg honce, if_pos hpermit, hnone]
    exact ⟨rfl, h.closeOnce, h.unlocked⟩

theorem Closed.releasePermit (h : Closed s) : Closed (s.releasePermit cfg) := by
  unfold Stream.releasePermit
  rw [if_pos h.permitOnce]
  exact h

theorem holding_read (cfg : StreamConfig) (s : Stream) (r : ReadInput) :
    (s.read cfg r).2.holding = s.holding ∨
      ∃ s' : Stream, (s.read cfg r).2 = s'.releasePermit cfg ∧ s'.holding = s.holding := by
  unfold Stream.read
  have hfetch := holding_fetch cfg s r
  generalize s.fetch cfg r = fetched at hfetch ⊢
  obtain ⟨data, err, s'⟩ := fetched
  have hcopy := (holding_copy s' data r).trans hfetch
  dsimp only
  cases err with
  | none => exact Or.inl hcopy
  | some err =>
    right
    cases err with
    | eof => exact ⟨_, rfl, hcopy⟩
    | _ => exact ⟨_, rfl, hcopy⟩

theorem close_release (cfg : StreamConfig) (hopen : s.closeOnce = false) (c : CloseInput) :
    ∃ (s' : Stream) (success : Bool), s.close cfg c = s'.release cfg success ∧
      s'.holding = { s with closeOnce := true }.holding := by
  unfold Stream.close
  rw [if_neg (by rw [hopen]; decide)]
  dsimp only
  have hbody := holding_closeBody
    { s with closeOnce := true, closeErr := s.writeErr <|> s.closeErr } (s.whole cfg) c
  generalize Stream.closeBody _ (s.whole cfg) c = closed at hbody ⊢
  obtain ⟨success, s₁⟩ := closed
  have hfile := (holding_closeFile s₁ c).trans hbody
  dsimp only
  by_cases hsuccess : success = true
  · rw [if_pos hsuccess]
    cases c.reserve with
    | refused => exact ⟨_, _, rfl, (holding_removeTemp _).trans hfile⟩
    | absent =>
      exact ⟨_, _, rfl, (holding_removeTemp _).trans ((holding_commit cfg _ c).trans hfile)⟩
    | granted =>
      have hcommit := holding_commit cfg
        { s₁.closeFile c with reserved := (s₁.closeFile c).reserved + 1 } c
      exact ⟨_, _, rfl, (holding_removeTemp _).trans (hcommit.trans hfile)⟩
  · rw [if_neg hsuccess]
    exact ⟨_, _, rfl, (holding_removeTemp _).trans hfile⟩

theorem Open.read (h : Open s) (hpermit : cfg.permit = true) (r : ReadInput) :
    Open (s.read cfg r).2 := by
  rcases holding_read cfg s r with hsame | ⟨s', hread, hsame⟩
  · exact h.congr hsame
  · rw [hread]
    exact (h.congr hsame).releasePermit hpermit

theorem Closed.read (h : Closed s) (r : ReadInput) : Closed (s.read cfg r).2 := by
  rcases holding_read cfg s r with hsame | ⟨s', hread, hsame⟩
  · exact h.congr hsame
  · rw [hread]
    exact (h.congr hsame).releasePermit

theorem Open.close (h : Open s) (hpermit : cfg.permit = true) (hmgr : cfg.inFlightMgr = true)
    (c : CloseInput) : Closed (s.close cfg c) := by
  obtain ⟨s', success, hclose, hsame⟩ := close_release cfg h.closeOnce c
  obtain ⟨honce, hpermits, hclosed, hunlocked⟩ := holding_inj hsame
  have hnone := h.permits
  rw [hclose]
  unfold Stream.release Stream.releasePermit
  dsimp only at honce hpermits hclosed hunlocked ⊢
  rw [if_pos hmgr, hunlocked, h.unlocked]
  by_cases hreturned : s.permitOnce = true
  · rw [if_pos hreturned] at hnone
    rw [if_pos (honce.trans hreturned)]
    exact ⟨honce.trans hreturned, hpermits.trans hnone, hclosed, rfl⟩
  · rw [if_neg hreturned] at hnone
    rw [honce, if_neg hreturned, if_pos hpermit, hpermits, hnone]
    exact ⟨rfl, rfl, hclosed, rfl⟩

theorem Closed.close (h : Closed s) (c : CloseInput) : Closed (s.close cfg c) := by
  unfold Stream.close
  rw [if_pos h.closeOnce]
  exact h

structure RepositoryMutationReadCloser.Opened (r : RepositoryMutationReadCloser) : Prop where
  permit : r.cfg.permit = true
  inFlightMgr : r.cfg.inFlightMgr = true
  stream : Open r.stream
  gate : r.once = false ∧ r.released = 0

structure RepositoryMutationReadCloser.Shut (r : RepositoryMutationReadCloser) : Prop where
  stream : Closed r.stream
  gate : r.once = true ∧ r.released = 1

variable {reader : RepositoryMutationReadCloser}

theorem RepositoryMutationReadCloser.Opened.next (h : reader.Opened) (use : Use) :
    if use.isClose then (reader.next use).Shut else (reader.next use).Opened := by
  cases use with
  | read r => exact ⟨h.permit, h.inFlightMgr, h.stream.read h.permit r, h.gate⟩
  | close c =>
    refine ⟨h.stream.close h.permit h.inFlightMgr c, rfl, ?_⟩
    dsimp only [RepositoryMutationReadCloser.next]
    rw [h.gate.1, h.gate.2]
    rfl

theorem RepositoryMutationReadCloser.Shut.next (h : reader.Shut) (use : Use) :
    (reader.next use).Shut := by
  cases use with
  | read r => exact ⟨h.stream.read r, h.gate⟩
  | close c =>
    refine ⟨h.stream.close c, rfl, ?_⟩
    dsimp only [RepositoryMutationReadCloser.next]
    rw [if_pos h.gate.1]
    exact h.gate.2

theorem RepositoryMutationReadCloser.Shut.uses (uses : List Use) :
    ∀ {reader : RepositoryMutationReadCloser}, reader.Shut →
      (uses.foldl RepositoryMutationReadCloser.next reader).Shut := by
  induction uses with
  | nil =>
    intro reader h
    exact h
  | cons use uses ih =>
    intro reader h
    exact ih (h.next use)

theorem RepositoryMutationReadCloser.Opened.uses (uses : List Use) :
    ∀ {reader : RepositoryMutationReadCloser}, reader.Opened →
      if uses.any Use.isClose then (uses.foldl RepositoryMutationReadCloser.next reader).Shut
      else (uses.foldl RepositoryMutationReadCloser.next reader).Opened := by
  induction uses with
  | nil =>
    intro reader h
    exact h
  | cons use uses ih =>
    intro reader h
    have hnext := h.next use
    rw [List.any_cons, List.foldl_cons]
    by_cases hclose : use.isClose = true
    · rw [if_pos hclose] at hnext
      rw [hclose, Bool.true_or, if_pos rfl]
      exact hnext.uses uses
    · rw [if_neg hclose] at hnext
      rw [Bool.eq_false_iff.mpr hclose, Bool.false_or]
      exact ih hnext

def Held.withReader (h : Held) (reader : RepositoryMutationReadCloser) : Held :=
  { h with
    left := h.left + reader.released
    returned := h.returned + reader.stream.permits
    unlocked := h.unlocked ++ reader.stream.unlocked }

structure Held.Released (h : Held) : Prop where
  gate : h.entered = 1 ∧ h.left = 1
  permits : h.returned = h.acquired
  unlocked : h.unlocked.length = 1

structure Held.Kept (h : Held) : Prop where
  gate : h.entered = 1 ∧ h.left = 0
  permits : h.returned ≤ h.acquired ∧ h.acquired ≤ h.returned + 1
  unlocked : h.unlocked = []

/-- What `ProxyArtifact` has taken is given back once: before it returns an error or a body, or by
the first `Close` of the stream that it returns, however the stream is used. -/
def ProxyOutcome.ReleasesAll (outcome : ProxyOutcome) : Prop :=
  match outcome.result with
  | .stream reader => ∀ uses : List Use,
    let held := outcome.held.withReader (uses.foldl RepositoryMutationReadCloser.next reader)
    if uses.any Use.isClose then held.Released else held.Kept
  | _ => outcome.held.Released

structure Held.Balanced (h : Held) : Prop where
  gate : h.entered = 1 ∧ h.left = 0
  permits : h.returned = h.acquired
  unlocked : h.unlocked = []

variable {h : Held} {call : ProxyCall}

theorem Held.Balanced.again (hb : h.Balanced) : h.acquirePermit.releasePermit.Balanced :=
  ⟨hb.gate, congrArg (· + 1) hb.permits, hb.unlocked⟩

theorem Held.Balanced.release (hb : h.Balanced) (success : Bool) :
    (h.unlockPath success).releaseMutation.Released := by
  refine ⟨⟨hb.gate.1, congrArg (· + 1) hb.gate.2⟩, hb.permits, ?_⟩
  dsimp only [Held.unlockPath, Held.releaseMutation]
  rw [hb.unlocked]
  rfl

def ProxyOutcome.Settled (outcome : ProxyOutcome) : Prop :=
  match outcome.result with
  | .stream reader => reader.Opened ∧ ∃ h : Held, h.Balanced ∧ outcome.held = h.acquirePermit
  | _ => outcome.held.Released

theorem releasesAll_stream {reader : RepositoryMutationReadCloser} (hb : h.Balanced)
    (hr : reader.Opened) : ProxyOutcome.ReleasesAll ⟨.stream reader, h.acquirePermit, none⟩ := by
  intro uses held
  have huses := hr.uses uses
  have hleft := hb.gate.2
  have hreturned := hb.permits
  by_cases hclose : uses.any Use.isClose = true
  · rw [if_pos hclose] at huses ⊢
    have hreleased := huses.gate.2
    have hpermits := huses.stream.permits
    refine ⟨⟨hb.gate.1, ?_⟩, ?_, ?_⟩
    · dsimp only [held, Held.withReader, Held.acquirePermit]
      omega
    · dsimp only [held, Held.withReader, Held.acquirePermit]
      omega
    · dsimp only [held, Held.withReader, Held.acquirePermit]
      rw [hb.unlocked]
      exact huses.stream.unlocked
  · rw [if_neg hclose] at huses ⊢
    have hreleased := huses.gate.2
    have hpermits := huses.stream.permits
    refine ⟨⟨hb.gate.1, ?_⟩, ?_, ?_⟩
    · dsimp only [held, Held.withReader, Held.acquirePermit]
      omega
    · dsimp only [held, Held.withReader, Held.acquirePermit]
      split_ifs at hpermits
      · omega
      · omega
    · dsimp only [held, Held.withReader, Held.acquirePermit]
      rw [hb.unlocked]
      exact huses.stream.unlocked

theorem ProxyOutcome.Settled.releasesAll {outcome : ProxyOutcome} (hsettled : outcome.Settled) :
    outcome.ReleasesAll := by
  obtain ⟨result, held, negativeCached⟩ := outcome
  cases result with
  | error err => exact hsettled
  | buffered data => exact hsettled
  | stream reader =>
    obtain ⟨hr, h, hb, hheld⟩ := hsettled
    dsimp only at hheld
    rw [hheld]
    exact releasesAll_stream hb hr

theorem settled_serve (hb : h.Balanced) (reply : Reply) :
    (call.serve h.acquirePermit reply).Settled := by
  unfold ProxyCall.serve
  by_cases hlarge : reply.body.contentLength > call.responseLimit
  · rw [if_pos hlarge]
    exact hb.again.release false
  rw [if_neg hlarge]
  by_cases hfull : reply.body.contentLength ≥ 0 ∧ reply.allocate = false
  · rw [if_pos hfull]
    exact hb.again.release false
  rw [if_neg hfull]
  cases reply.body.selectBody with
  | small data => exact hb.again.release reply.saved
  | streamed body ending =>
    have hopen := open_createProxyStream body reply.created call.target call.index
    exact ⟨⟨rfl, rfl, hopen, rfl, rfl⟩, h, hb, rfl⟩

theorem tryMirror_cases (call : ProxyCall) {p : ProxyProgress} (hb : p.held.Balanced) (m : Mirror) :
    (∃ p', call.tryMirror p m = .ok p' ∧ p'.held.Balanced) ∨
      ∃ outcome, call.tryMirror p m = .error outcome ∧ outcome.Settled := by
  unfold ProxyCall.tryMirror
  cases m.blocked with
  | some reason => exact Or.inl ⟨_, rfl, hb⟩
  | none =>
    dsimp only
    by_cases hurl : m.mirrorURL = ""
    · exact Or.inl ⟨_, if_pos hurl, hb⟩
    rw [if_neg hurl]
    by_cases hrequest : m.newRequest = false
    · exact Or.inl ⟨_, if_pos hrequest, hb⟩
    rw [if_neg hrequest]
    by_cases hauthorization : m.authorization = some false
    · exact Or.inl ⟨_, if_pos hauthorization, hb⟩
    rw [if_neg hauthorization]
    by_cases hsemaphore : m.semaphore = false
    · exact Or.inl ⟨_, if_pos hsemaphore, hb⟩
    rw [if_neg hsemaphore]
    by_cases hclient : m.client = false
    · exact Or.inl ⟨_, if_pos hclient, hb.again⟩
    rw [if_neg hclient]
    cases m.reply with
    | none => exact Or.inl ⟨_, rfl, hb.again⟩
    | some reply =>
      dsimp only
      by_cases hstatus : 200 ≤ reply.statusCode ∧ reply.statusCode < 300
      · exact Or.inr ⟨_, if_pos hstatus, settled_serve hb reply⟩
      · exact Or.inl ⟨_, if_neg hstatus, hb.again⟩

theorem settled_finish {p : ProxyProgress} (hb : p.held.Balanced) : p.finish.Settled := by
  have hreleased := hb.release false
  unfold ProxyProgress.finish ProxyOutcome.Settled
  dsimp only
  by_cases hreason : p.lastBlockedReason ≠ ""
  · rw [if_pos hreason]
    exact hreleased
  · rw [if_neg hreason]
    exact hreleased

theorem settled_tryMirrors (mirrors : List Mirror) :
    ∀ {p : ProxyProgress}, p.held.Balanced → (call.tryMirrors p mirrors).Settled := by
  induction mirrors with
  | nil =>
    intro p hb
    exact settled_finish hb
  | cons m mirrors ih =>
    intro p hb
    unfold ProxyCall.tryMirrors
    rcases tryMirror_cases call hb m with ⟨p', hturn, hb'⟩ | ⟨outcome, hturn, hall⟩
    · rw [hturn]
      exact ih hb'
    · rw [hturn]
      exact hall

theorem settled_proxyArtifact (call : ProxyCall) : (proxyArtifact false call).Settled := by
  have hb : (Held.acquireMutation {}).Balanced := ⟨⟨rfl, rfl⟩, rfl, rfl⟩
  unfold proxyArtifact
  rw [if_neg Bool.false_ne_true]
  dsimp only
  by_cases hpath : call.sanitized = false
  · rw [if_pos hpath]
    exact hb.release false
  rw [if_neg hpath]
  by_cases hmutable : call.mutable = false
  · rw [if_pos hmutable]
    exact hb.release false
  rw [if_neg hmutable]
  by_cases hauthorized : call.authorizeMirrorWrite = some false
  · rw [if_pos hauthorized]
    exact hb.release false
  rw [if_neg hauthorized]
  exact settled_tryMirrors call.mirrors hb

theorem demo_not_releasesAll (call : ProxyCall) : ¬(proxyArtifact true call).ReleasesAll := by
  intro hall
  exact Nat.zero_ne_one hall.unlocked

end RenoP.Proxy
