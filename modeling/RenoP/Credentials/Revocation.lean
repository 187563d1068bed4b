import RenoP.Cache.CallRuns
import RenoP.Credentials.Lookups
import RenoP.Lib.Runs

/-!
# Revoked credentials

Runs in which no stale credential gets into the cache.
-/

namespace RenoP.Credentials

open RenoP.Database (Text)
open RenoP.Cache.TTL

variable {D A : Type} {s : System D A} {cfg : TTLConfig Text}

theorem validAPITokenHash_length {hash : Text} (h : validAPITokenHash hash = true) :
    hash.length = 64 := by
  unfold validAPITokenHash at h
  rw [Bool.and_eq_true, decide_eq_true_eq] at h
  exact h.1

theorem cacheKey_inj {hash hash' user user' : Text} (h : validAPITokenHash hash = true)
    (h' : validAPITokenHash hash' = true) (hkey : cacheKey hash user = cacheKey hash' user') :
    hash = hash' ∧ user = user' := by
  have hlength : hash.length = hash'.length := by
    rw [validAPITokenHash_length h, validAPITokenHash_length h']
  obtain ⟨hhash, hrest⟩ := List.append_inj hkey hlength
  exact ⟨hhash, (List.cons.inj hrest).2⟩

variable [DecidableEq D] [DecidableEq A] {history : List (Tables D A)} {rs : List Revocation}
  {hash user : Text} {c : Credential D A}

theorem given_append {change : ℕ} (t : Tables D A) (h : given history change hash user c = true) :
    given (history ++ [t]) change hash user c = true := by
  unfold given at h ⊢
  rw [List.drop_append, List.any_append, h, Bool.true_or]

theorem given_now {change : ℕ} {t : Tables D A} (hlast : history.getLast? = some t)
    (hchange : change < history.length) (hresolve : resolve t hash user = some c) :
    given history change hash user c = true := by
  unfold given
  obtain ⟨start, rfl⟩ := List.getLast?_eq_some_iff.mp hlast
  rw [List.length_append, List.length_singleton] at hchange
  have hdrop : (start ++ [t]).drop change = start.drop change ++ [t] := by
    rw [List.drop_append, show change - start.length = 0 by omega, List.drop_zero]
  rw [hdrop, List.any_append, Bool.or_eq_true]
  right
  simp [hresolve]

theorem current_iff : current history rs hash user c = true ↔ ∀ r ∈ rs,
    r.subject.covers c = true → given history r.change hash user c = true := by
  unfold current
  rw [List.all_eq_true]
  constructor
  · intro h r hr hcovers
    have hr := h r hr
    rw [hcovers] at hr
    exact hr
  · intro h r hr
    cases hcovers : r.subject.covers c with
    | false => rfl
    | true => exact h r hr hcovers

theorem current_append (t : Tables D A) (h : current history rs hash user c = true) :
    current (history ++ [t]) rs hash user c = true := by
  rw [current_iff] at h ⊢
  intro r hr hcovers
  exact given_append t (h r hr hcovers)

def PendingOk (history : List (Tables D A)) : Pending D A → Prop
  | .query hash _ before =>
    validAPITokenHash hash = true ∧ ∀ r ∈ before, r.change < history.length
  | .store hash user c before =>
    validAPITokenHash hash = true ∧ current history before hash user c = true
  | .clear revocation => ∀ r ∈ revocation, r.change < history.length
  | _ => True

structure Sound (cfg : TTLConfig Text) (s : System D A) : Prop where
  slotted : Slotted cfg s.cache
  last : s.history.getLast? = some s.tables
  finished : ∀ r ∈ s.finished, r.change < s.history.length
  pending : ∀ caller p, s.pending.load caller = some p → PendingOk s.history p
  cached : ∀ hash user item, validAPITokenHash hash = true →
    s.cache.items.load (cacheKey hash user) = some item → unixMilli s.clock < item.expiredAt →
    current s.history s.finished hash user item.value = true
  returned : ∀ l ∈ s.returned, current l.history l.before l.hash l.user l.credential = true

theorem sound_new (tables : Tables D A) (clock : ℤ) : Sound cfg (System.new tables clock) where
  slotted := newTTLCache_slotted cfg
  last := rfl
  finished := nofun
  pending := nofun
  cached := nofun
  returned := nofun

theorem Sound.wait (h : Sound cfg s) (caller : ℕ) {p : Pending D A} (hp : PendingOk s.history p) :
    Sound cfg (s.wait caller p) := by
  refine ⟨h.slotted, h.last, h.finished, ?_, h.cached, h.returned⟩
  intro caller' p' hload
  rw [show (s.wait caller p).pending = s.pending.store caller p from rfl, GoMap.load_store] at hload
  split_ifs at hload
  · cases hload
    exact hp
  · exact h.pending caller' p' hload

theorem Sound.done (h : Sound cfg s) (caller : ℕ) : Sound cfg (s.done caller) := by
  refine ⟨h.slotted, h.last, h.finished, ?_, h.cached, h.returned⟩
  intro caller' p' hload
  rw [show (s.done caller).pending = s.pending.delete caller from rfl, GoMap.load_delete] at hload
  split_ifs at hload
  exact h.pending caller' p' hload

theorem PendingOk.append {p : Pending D A} (t : Tables D A) (h : PendingOk history p) :
    PendingOk (history ++ [t]) p := by
  have hlength : history.length < (history ++ [t]).length := by
    rw [List.length_append, List.length_singleton]
    omega
  cases p with
  | query hash user before => exact ⟨h.1, fun r hr => Nat.lt_trans (h.2 r hr) hlength⟩
  | store hash user c before => exact ⟨h.1, current_append t h.2⟩
  | updateDisabled user id disabled => trivial
  | updateDetails user id name details => trivial
  | updateHash user id newSecretHash => trivial
  | clear revocation => exact fun r hr => Nat.lt_trans (h r hr) hlength

theorem Sound.commit (h : Sound cfg s) (t : Tables D A) : Sound cfg (s.commit t) := by
  refine ⟨h.slotted, List.getLast?_concat, ?_, ?_, ?_, h.returned⟩
  · intro r hr
    show r.change < (s.history ++ [t]).length
    have hlt := h.finished r hr
    rw [List.length_append, List.length_singleton]
    omega
  · intro caller p hload
    exact (h.pending caller p hload).append t
  · intro hash user item hvalid hload hlive
    exact current_append t (h.cached hash user item hvalid hload hlive)

def uncached (s : System D A) (subject : Subject) : Bool :=
  s.cache.items.entries.all fun e =>
    decide (e.2.expiredAt ≤ unixMilli s.clock) || !subject.covers e.2.value

omit [DecidableEq D] [DecidableEq A] in
theorem uncached_covers {subject : Subject} (h : uncached s subject = true) {key : Text}
    {item : CacheItem Text (Credential D A)} (hload : s.cache.items.load key = some item)
    (hlive : unixMilli s.clock < item.expiredAt) : subject.covers item.value = false := by
  have hentry := List.all_eq_true.mp h ⟨key, item⟩ ((GoMap.mem_entries_iff _ _ _).mpr hload)
  rw [Bool.or_eq_true, decide_eq_true_eq, Bool.not_eq_true'] at hentry
  exact hentry.resolve_left (Int.not_le.mpr hlive)

theorem Sound.finish (h : Sound cfg s) {r : Revocation} (hr : r.change < s.history.length)
    (huncached : uncached s r.subject = true) : Sound cfg (s.finish r) := by
  refine ⟨h.slotted, h.last, ?_, h.pending, ?_, h.returned⟩
  · intro r' hr'
    rcases List.mem_cons.mp hr' with rfl | hold
    · exact hr
    · exact h.finished r' hold
  · intro hash user item hvalid hload hlive
    rw [current_iff]
    intro r' hr' hcovers
    rcases List.mem_cons.mp hr' with rfl | hold
    · rw [uncached_covers huncached hload hlive] at hcovers
      cases hcovers
    · exact current_iff.mp (h.cached hash user item hvalid hload hlive) r' hold hcovers

theorem Sound.withCache (h : Sound cfg s) {cache : TTLCache Text (Credential D A)}
    (hslotted : Slotted cfg cache) (hfewer : Fewer s.cache cache) : Sound cfg (s.withCache cache) :=
  ⟨hslotted, h.last, h.finished, h.pending,
    fun hash user item hvalid hload => h.cached hash user item hvalid (hfewer _ _ hload),
    h.returned⟩

theorem Sound.answer (h : Sound cfg s) {before : List Revocation}
    (hcurrent : current s.history before hash user c = true) :
    Sound cfg (s.answer hash user c before) := by
  refine ⟨h.slotted, h.last, h.finished, h.pending, h.cached, ?_⟩
  intro l hl
  rcases List.mem_append.mp hl with hold | hnew
  · exact h.returned l hold
  · rw [List.mem_singleton.mp hnew]
    exact hcurrent

/-- A credential that is stored was given after the change of every revocation about it that has
returned, and a call that returns without clearing the cache finds nothing of its subject there. -/
def keepsClean (s : System D A) : Event D A → Bool
  | .start caller (.setAPITokenDisabled user id disabled) =>
    s.pending.has caller || !disabled || !(ownedToken s.tables user id).any (fun row => row.disabled) ||
      uncached s (.token id)
  | .start caller (.deleteToken user retired) =>
    s.pending.has caller || (deleteAccount s.tables user retired).isNone ||
      uncached s (.account user)
  | .proceed caller =>
    match s.pending.load caller with
    | some (.store hash user c _) => current s.history s.finished hash user c
    | _ => true
  | _ => true

theorem history_pos (h : Sound cfg s) : 0 < s.history.length := by
  obtain ⟨start, hhistory⟩ := List.getLast?_eq_some_iff.mp h.last
  rw [hhistory, List.length_append, List.length_singleton]
  omega

theorem Sound.change (h : Sound cfg s) (caller : ℕ) (result : Option (Tables D A))
    {revocation : Option Revocation} (hr : ∀ r ∈ revocation, r.change ≤ s.history.length) :
    Sound cfg (s.change caller result revocation) := by
  unfold System.change
  cases result with
  | none => exact h.done caller
  | some t =>
    apply (h.commit t).wait
    intro r hmem
    show r.change < (s.history ++ [t]).length
    have hle := hr r hmem
    rw [List.length_append, List.length_singleton]
    omega

theorem Sound.startLookup (h : Sound cfg s) (caller : ℕ) (hash user : Text) :
    Sound cfg (startLookup cfg s caller hash user) := by
  unfold RenoP.Credentials.startLookup
  split_ifs with hinvalid
  · exact h
  have hvalid := Bool.not_eq_false _ |>.mp hinvalid
  split
  · exact h
  · rename_i c cache hget
    obtain ⟨hslotted, hfewer, hhit⟩ := get_items h.slotted hget
    obtain ⟨item, hload, hlive, hvalue⟩ := hhit c rfl
    apply (h.withCache hslotted hfewer).answer
    have hcached := h.cached hash user item hvalid hload hlive
    rw [hvalue] at hcached
    exact hcached
  · rename_i cache hget
    obtain ⟨hslotted, hfewer, -⟩ := get_items h.slotted hget
    exact (h.withCache hslotted hfewer).wait caller ⟨hvalid, h.finished⟩

theorem Sound.startDisable (h : Sound cfg s) (caller : ℕ) (user id : Text) (disabled : Bool)
    (hclean : disabled = true → (ownedToken s.tables user id).any (fun row => row.disabled) = true →
      uncached s (.token id) = true) :
    Sound cfg (startDisable s caller user id disabled) := by
  unfold RenoP.Credentials.startDisable
  split
  · exact h
  · rename_i row hrow
    split_ifs with hsame hdisabled
    · apply h.finish
      · have hpos := history_pos h
        show s.history.length - 1 < s.history.length
        omega
      · apply hclean hdisabled
        rw [hrow]
        exact hsame.trans hdisabled
    · exact h
    · exact h.wait caller trivial

theorem Sound.startOwned (h : Sound cfg s) (caller : ℕ) (user id : Text) {step : Pending D A}
    (hstep : PendingOk s.history step) : Sound cfg (startOwned s caller user id step) := by
  unfold RenoP.Credentials.startOwned
  split
  · exact h
  · exact h.wait caller hstep

theorem Sound.startDeletion (h : Sound cfg s) (user : Text) (retired : Option (A × ℤ))
    (hclean : (deleteAccount s.tables user retired).isNone = false →
      uncached s (.account user) = true) :
    Sound cfg (startDeletion s user retired) := by
  unfold RenoP.Credentials.startDeletion
  split
  · exact h
  · rename_i t hdeleted
    apply (h.commit t).finish
    · show s.history.length < (s.history ++ [t]).length
      rw [List.length_append, List.length_singleton]
      omega
    · exact hclean (by rw [hdeleted]; rfl)

theorem Sound.start (h : Sound cfg s) (caller : ℕ) (call : Call D A)
    (hfree : s.pending.has caller = false) (hclean : keepsClean s (.start caller call) = true) :
    Sound cfg (start cfg s caller call) := by
  have hnext : ∀ subject, ∀ r ∈ some (s.next subject), r.change ≤ s.history.length := by
    intro subject r hr
    cases hr
    exact Nat.le_refl _
  cases call with
  | getAPITokenByHash hash user => exact h.startLookup caller hash user
  | setAPITokenDisabled user id disabled =>
    apply h.startDisable
    intro hdisabled hany
    simpa [keepsClean, hfree, hdisabled, hany] using hclean
  | createAPIToken id row => exact h.change caller _ nofun
  | deleteAPIToken user id => exact h.change caller _ (hnext _)
  | updateAPIToken user id name details => exact h.startOwned caller user id trivial
  | rotateAPIToken user id newSecretHash =>
    unfold RenoP.Credentials.start
    dsimp only
    split_ifs
    · exact h
    · exact h.startOwned caller user id trivial
  | setAccountBan user ban => exact h.change caller _ (hnext _)
  | updateToken user data => exact h.change caller _ nofun
  | createToken user data => exact h.change caller _ nofun
  | deleteToken user retired =>
    apply h.startDeletion
    intro hdeleted
    simpa [keepsClean, hfree, hdeleted] using hclean

theorem Sound.queryLookup (h : Sound cfg s) (caller : ℕ) {before : List Revocation}
    (hp : PendingOk s.history (.query hash user before)) :
    Sound cfg (queryLookup s caller hash user before) := by
  unfold RenoP.Credentials.queryLookup
  split
  · exact h.done caller
  · rename_i c hresolve
    refine h.wait caller ⟨hp.1, ?_⟩
    rw [current_iff]
    intro r hr _
    exact given_now h.last (hp.2 r hr) hresolve

theorem Sound.storeLookup (h : Sound cfg s) (caller : ℕ) {before : List Revocation}
    (hp : PendingOk s.history (.store hash user c before))
    (hclean : current s.history s.finished hash user c = true) :
    Sound cfg (storeLookup cfg s caller hash user c before) := by
  unfold RenoP.Credentials.storeLookup
  split
  · exact h
  · rename_i stored cache hset
    obtain ⟨hslotted, hitems⟩ := set_items h.slotted hset
    have hcache : Sound cfg (s.withCache cache) := by
      refine ⟨hslotted, h.last, h.finished, h.pending, ?_, h.returned⟩
      intro hash' user' item hvalid hload hlive
      rcases hitems _ _ hload with hold | ⟨hkey, hvalue⟩
      · exact h.cached hash' user' item hvalid hold hlive
      · obtain ⟨rfl, rfl⟩ := cacheKey_inj hvalid hp.1 hkey
        rw [hvalue]
        exact hclean
    exact (hcache.answer hp.2).done caller

theorem Sound.clearCache (h : Sound cfg s) (caller : ℕ) {revocation : Option Revocation}
    (hp : PendingOk s.history (.clear revocation)) :
    Sound cfg (clearCache s caller revocation) := by
  have hempty : ∀ k, (clear s.cache).items.load k = none := clear_items h.slotted
  have hcleared : Sound cfg ((s.withCache (clear s.cache)).done caller) := by
    apply Sound.done
    apply h.withCache (clear_slotted h.slotted)
    intro k item hload
    rw [hempty k] at hload
    cases hload
  unfold RenoP.Credentials.clearCache
  cases revocation with
  | none => exact hcleared
  | some r =>
    apply hcleared.finish
    · exact hp r rfl
    · apply List.all_eq_true.mpr
      intro e he
      have hload := (GoMap.mem_entries_iff _ e.1 e.2).mp he
      rw [show ((s.withCache (clear s.cache)).done caller).cache = clear s.cache from rfl,
        hempty] at hload
      cases hload

theorem Sound.proceed (h : Sound cfg s) (caller : ℕ)
    (hclean : keepsClean s (.proceed caller) = true) : Sound cfg (proceed cfg s caller) := by
  have hnext : ∀ subject, ∀ r ∈ some (s.next subject), r.change ≤ s.history.length := by
    intro subject r hr
    cases hr
    exact Nat.le_refl _
  unfold RenoP.Credentials.proceed
  cases hload : s.pending.load caller with
  | none => exact h
  | some p =>
    have hp := h.pending caller p hload
    cases p with
    | query hash user before => exact h.queryLookup caller hp
    | store hash user c before =>
      unfold keepsClean at hclean
      dsimp only at hclean
      rw [hload] at hclean
      exact h.storeLookup caller hp hclean
    | updateDisabled user id disabled =>
      apply h.change
      cases disabled with
      | true => exact hnext _
      | false => exact nofun
    | updateDetails user id name details => exact h.change caller _ nofun
    | updateHash user id newSecretHash => exact h.change caller _ (hnext _)
    | clear revocation => exact h.clearCache caller hp

theorem unixMilli_mono {a b : ℤ} (h : a ≤ b) : unixMilli a ≤ unixMilli b :=
  Int.ediv_le_ediv (by decide) h

theorem Sound.step (h : Sound cfg s) (event : Event D A) (hclean : keepsClean s event = true) :
    Sound cfg (step cfg s event) := by
  cases event with
  | start caller call =>
    unfold RenoP.Credentials.step
    dsimp only
    split_ifs with hpending
    · exact h
    · exact h.start caller call (Bool.eq_false_iff.mpr hpending) hclean
  | proceed caller => exact h.proceed caller hclean
  | evictExpired =>
    unfold RenoP.Credentials.step
    dsimp only
    split
    · exact h
    · rename_i cache hevict
      obtain ⟨hslotted, hfewer⟩ := evictExpired_items h.slotted hevict
      exact h.withCache hslotted hfewer
  | tick nanos =>
    refine ⟨h.slotted, h.last, h.finished, h.pending, ?_, h.returned⟩
    intro hash user item hvalid hload hlive
    have hle : unixMilli s.clock ≤ unixMilli (s.clock + nanos) := unixMilli_mono (by omega)
    exact h.cached hash user item hvalid hload (Int.lt_of_le_of_lt hle hlive)

/-- Every lookup that returned gave a credential that the tables gave after the change of every
revocation about it that had returned when the lookup started. -/
def RevokedStay (s : System D A) : Prop :=
  ∀ l ∈ s.returned, current l.history l.before l.hash l.user l.credential = true

theorem numShards_pos : 0 < numShards := by decide

theorem oneShard_capacity : 1 ≤ 256 := by decide

def oneShard : TTLConfig Text :=
  ⟨apiTokenTTL, 256, fun _ => ⟨0, numShards_pos⟩, fun _ => true, oneShard_capacity⟩

def tokenHash : Text := List.replicate 64 'a'

def oneToken : Tables Unit Unit where
  apiTokens := (∅ : GoMap Text (APITokenRow Unit)).store ['t'] ⟨['u'], ['n'], tokenHash, false, ()⟩
  accounts := (∅ : GoMap Text (Account Unit)).store ['u'] ⟨none, 0, ()⟩

def bannedBetween : List (Event Unit Unit) :=
  [.start 1 (.getAPITokenByHash tokenHash []), .proceed 1, .proceed 1,
    .start 2 (.setAccountBan ['u'] (some ⟨['r'], [], 1, none⟩)), .proceed 2,
    .start 3 (.getAPITokenByHash tokenHash []), .proceed 3, .proceed 3]

/-- A lookup reads the row of a token, the token is deleted and the cache cleared, and the lookup
stores what it read. -/
def staleStore : List (Event Unit Unit) :=
  [.start 1 (.getAPITokenByHash tokenHash []), .proceed 1,
    .start 2 (.deleteAPIToken ['u'] ['t']), .proceed 2, .proceed 1,
    .start 3 (.getAPITokenByHash tokenHash [])]

def deletedAccount : List (Event Unit Unit) :=
  [.start 1 (.getAPITokenByHash tokenHash []), .proceed 1, .proceed 1,
    .start 2 (.deleteToken ['u'] none), .start 3 (.getAPITokenByHash tokenHash [])]

def disabledTwice : List (Event Unit Unit) :=
  [.start 1 (.getAPITokenByHash tokenHash []), .proceed 1, .proceed 1,
    .start 2 (.setAPITokenDisabled ['u'] ['t'] true), .proceed 2,
    .start 3 (.setAPITokenDisabled ['u'] ['t'] true), .start 4 (.getAPITokenByHash tokenHash [])]

end RenoP.Credentials
