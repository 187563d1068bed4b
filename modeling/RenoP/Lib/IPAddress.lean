import Mathlib.Algebra.Group.Nat.Defs
import Mathlib.Data.List.TakeWhile
import Mathlib.Tactic.Common

/-!
# IP addresses (packages net and net/netip of the Go standard library)

`ParseIP`, `ParseCIDR` and the networks that contain an address, on the bytes of a text. An address
is a list of 4 or 16 bytes.
-/

namespace IPAddress

abbrev Bytes := List UInt8

def point : UInt8 := 0x2E
def colon : UInt8 := 0x3A
def percent : UInt8 := 0x25
def slash : UInt8 := 0x2F

def isDigit (c : UInt8) : Bool := decide (0x30 ≤ c) && decide (c ≤ 0x39)

def isHex (c : UInt8) : Bool :=
  isDigit c || (decide (0x61 ≤ c) && decide (c ≤ 0x66)) || (decide (0x41 ≤ c) && decide (c ≤ 0x46))

def hexValue (c : UInt8) : ℕ :=
  if isDigit c then (c - 0x30).toNat
  else if 0x61 ≤ c then (c - 0x61).toNat + 10 else (c - 0x41).toNat + 10

/-- The fields so far and the value of the field that is read, if it has a digit. -/
def parseIPv4Fields (fields : List ℕ) (val : Option ℕ) : Bytes → Option (List ℕ)
  | [] =>
    match val with
    | some v => if fields.length = 3 then some (fields ++ [v]) else none
    | none => none
  | c :: s =>
    if isDigit c then
      match val with
      | none => parseIPv4Fields fields (some (c - 0x30).toNat) s
      | some v =>
        if v = 0 then none
        else if 255 < v * 10 + (c - 0x30).toNat then none
        else parseIPv4Fields fields (some (v * 10 + (c - 0x30).toNat)) s
    else if c = point then
      match val with
      | none => none
      | some v => if fields.length = 3 then none else parseIPv4Fields (fields ++ [v]) none s
    else none

def parseIPv4 (s : Bytes) : Option Bytes :=
  (parseIPv4Fields [] none s).map fun fields => fields.map UInt8.ofNat

def group (digits : Bytes) : Bytes :=
  let acc := digits.foldl (fun acc c => acc * 16 + hexValue c) 0
  [UInt8.ofNat (acc / 256), UInt8.ofNat (acc % 256)]

/-- The loop over the groups that are left to read: the bytes, the place of the ellipsis in them
and what is left of the text. -/
def parseGroups (ip : Bytes) (ellipsis : Option ℕ) : ℕ → Bytes → Option (Bytes × Option ℕ × Bytes)
  | 0, s => some (ip, ellipsis, s)
  | n + 1, s =>
    let digits := s.takeWhile isHex
    if 4 < digits.length ∨ digits = [] then none
    else
      match s.dropWhile isHex with
      | [] => some (ip ++ group digits, ellipsis, [])
      | c :: s' =>
        if c = point then
          if (ellipsis = none ∧ ip.length ≠ 12) ∨ 16 < ip.length + 4 then none
          else (parseIPv4 s).map fun fields => (ip ++ fields, ellipsis, [])
        else if c ≠ colon then none
        else
          match s' with
          | [] => none
          | d :: s'' =>
            if d = colon then
              if ellipsis ≠ none then none
              else if s'' = [] then some (ip ++ group digits, some (ip.length + 2), [])
              else parseGroups (ip ++ group digits) (some (ip.length + 2)) n s''
            else parseGroups (ip ++ group digits) ellipsis n (d :: s'')

def expand : Bytes × Option ℕ × Bytes → Option Bytes
  | (ip, ellipsis, s) =>
    if s ≠ [] then none
    else
      match ellipsis with
      | none => if ip.length < 16 then none else some ip
      | some place =>
        if ip.length < 16 then
          some (ip.take place ++ List.replicate (16 - ip.length) 0 ++ ip.drop place)
        else none

def parseIPv6 (s : Bytes) : Option Bytes :=
  if percent ∈ s then none
  else
    match s with
    | a :: b :: s' =>
      if a = colon ∧ b = colon then
        if s' = [] then some (List.replicate 16 0)
        else (parseGroups [] (some 0) 8 s').bind expand
      else (parseGroups [] none 8 s).bind expand
    | _ => (parseGroups [] none 8 s).bind expand

/-- `netip.ParseAddr`, but an address with a zone is refused. -/
def parseAddr (s : Bytes) : Option Bytes :=
  match s.find? fun c => c = point ∨ c = colon ∨ c = percent with
  | none => none
  | some c => if c = point then parseIPv4 s else if c = colon then parseIPv6 s else none

def v4InV6Prefix : Bytes := List.replicate 10 0 ++ [0xFF, 0xFF]

def as16 (addr : Bytes) : Bytes := if addr.length = 4 then v4InV6Prefix ++ addr else addr

def parseIP (s : Bytes) : Option Bytes := (parseAddr s).map as16

def to4 (ip : Bytes) : Option Bytes :=
  if ip.length = 4 then some ip
  else if ip.length = 16 ∧ ip.take 12 = v4InV6Prefix then some (ip.drop 12) else none

def isLoopback (ip : Bytes) : Bool :=
  match to4 ip with
  | some ip4 => decide (ip4.head? = some 127)
  | none => decide (ip = List.replicate 15 0 ++ [1])

structure IPNet where
  ip : Bytes
  mask : Bytes
  deriving DecidableEq

def cidrMask (ones bits : ℕ) : Bytes :=
  (List.range (bits / 8)).map fun i =>
    if 8 ≤ ones - 8 * i then 0xFF else UInt8.ofNat (255 - 255 / 2 ^ (ones - 8 * i))

def maskBytes (ip mask : Bytes) : Bytes := List.zipWith (· &&& ·) ip mask

def parseCIDR (s : Bytes) : Option IPNet :=
  if slash ∉ s then none
  else
    let text := s.takeWhile (· ≠ slash)
    let ones := (s.dropWhile (· ≠ slash)).tail
    match parseAddr text with
    | none => none
    | some addr =>
      if ones = [] ∨ ¬ones.all isDigit then none
      else
        let n := ones.foldl (fun n c => n * 10 + (c - 0x30).toNat) 0
        if 8 * addr.length < n then none
        else some ⟨maskBytes addr (cidrMask n (8 * addr.length)), cidrMask n (8 * addr.length)⟩

/-- `Contains` of a network that was parsed: its mask is as long as its address. -/
def IPNet.contains (net : IPNet) (ip : Bytes) : Bool :=
  let (nn, m) := match to4 net.ip with
    | some ip4 => (ip4, if net.mask.length = 16 then net.mask.drop 12 else net.mask)
    | none => (net.ip, net.mask)
  let ip := (to4 ip).getD ip
  decide (ip.length = nn.length) && decide (maskBytes nn m = maskBytes ip m)

def isAddressByte (c : UInt8) : Bool := isHex c || decide (c = point) || decide (c = colon)

theorem parseIPv4Fields_bytes {fields out : List ℕ} {val : Option ℕ} {s : Bytes}
    (h : parseIPv4Fields fields val s = some out) : ∀ c ∈ s, isDigit c = true ∨ c = point := by
  fun_induction parseIPv4Fields fields val s with
  | case1 => simp
  | case2 => cases h
  | case3 => cases h
  | case4 fields c s hdigit ih =>
    intro d hd
    rcases List.mem_cons.mp hd with rfl | hd
    · exact .inl hdigit
    · exact ih h d hd
  | case5 => cases h
  | case6 => cases h
  | case7 fields c s hdigit v hzero hsmall ih =>
    intro d hd
    rcases List.mem_cons.mp hd with rfl | hd
    · exact .inl hdigit
    · exact ih h d hd
  | case8 => cases h
  | case9 => cases h
  | case10 fields s v hdigit hlength ih =>
    intro d hd
    rcases List.mem_cons.mp hd with rfl | hd
    · exact .inr rfl
    · exact ih h d hd
  | case11 => cases h

theorem parseIPv4_bytes {s ip : Bytes} (h : parseIPv4 s = some ip) :
    ∀ c ∈ s, isDigit c = true ∨ c = point := by
  obtain ⟨fields, hfields, -⟩ := Option.map_eq_some_iff.mp h
  exact parseIPv4Fields_bytes hfields

theorem isAddressByte_of_field {c : UInt8} (h : isDigit c = true ∨ c = point) :
    isAddressByte c = true := by
  rcases h with h | rfl
  · simp [isAddressByte, isHex, h]
  · rfl

theorem isAddressByte_of_hex {c : UInt8} (h : isHex c = true) : isAddressByte c = true := by
  simp [isAddressByte, h]

theorem digits_and_rest {s rest : Bytes} (h : s.dropWhile isHex = rest) :
    s = s.takeWhile isHex ++ rest := by
  rw [← h, List.takeWhile_append_dropWhile]

theorem parseGroups_bytes {ip : Bytes} {ellipsis : Option ℕ} {n : ℕ} {s : Bytes}
    {r : Bytes × Option ℕ × Bytes} (h : parseGroups ip ellipsis n s = some r) :
    ∃ used, s = used ++ r.2.2 ∧ ∀ c ∈ used, isAddressByte c = true := by
  have hdigits : ∀ s : Bytes, ∀ c ∈ s.takeWhile isHex, isAddressByte c = true :=
    fun s c hc => isAddressByte_of_hex (List.mem_takeWhile_imp hc)
  have hstep : ∀ s used : Bytes, (∀ c ∈ used, isAddressByte c = true) →
      ∀ c ∈ s.takeWhile isHex ++ colon :: used, isAddressByte c = true := by
    intro s used hused c hc
    rcases List.mem_append.mp hc with hc | hc
    · exact hdigits s c hc
    · rcases List.mem_cons.mp hc with rfl | hc
      · decide
      · exact hused c hc
  fun_induction parseGroups ip ellipsis n s with
  | case1 =>
    cases h
    exact ⟨[], rfl, by simp⟩
  | case2 => cases h
  | case3 ip ellipsis n s digits hlength hrest =>
    cases h
    exact ⟨digits, digits_and_rest hrest, hdigits s⟩
  | case4 => cases h
  | case5 ip ellipsis n s digits hlength s' hroom =>
    obtain ⟨fields, hfields, rfl⟩ := Option.map_eq_some_iff.mp h
    exact ⟨s, (List.append_nil s).symm, fun c hc =>
      isAddressByte_of_field (parseIPv4_bytes hfields c hc)⟩
  | case6 => cases h
  | case7 => cases h
  | case8 => cases h
  | case9 ip ellipsis n s digits hlength c hpoint hc hnone hrest =>
    cases h
    refine ⟨digits ++ [colon, colon], ?_, hstep s [colon] (by decide +kernel)⟩
    have hs := digits_and_rest hrest
    rw [not_not.mp hc] at hs
    simpa [digits] using hs
  | case10 ip ellipsis n s digits hlength c hpoint hc s'' hnone hne hrest ih =>
    obtain ⟨used, hused, hbytes⟩ := ih h
    refine ⟨digits ++ colon :: colon :: used, ?_, hstep s (colon :: used) ?_⟩
    · have hs := digits_and_rest hrest
      rw [not_not.mp hc] at hs
      rw [hs, hused]
      simp [digits]
    · intro d hd
      rcases List.mem_cons.mp hd with rfl | hd
      · decide
      · exact hbytes d hd
  | case11 ip ellipsis n s digits hlength c hpoint hc d s'' hd hrest ih =>
    obtain ⟨used, hused, hbytes⟩ := ih h
    refine ⟨digits ++ colon :: used, ?_, hstep s used hbytes⟩
    have hs := digits_and_rest hrest
    rw [not_not.mp hc] at hs
    rw [hs, hused]
    simp [digits]

theorem expand_some {r : Bytes × Option ℕ × Bytes} {ip : Bytes} (h : expand r = some ip) :
    r.2.2 = [] ∧ (r.2.1 = none → 16 ≤ r.1.length) := by
  obtain ⟨read, ellipsis, s⟩ := r
  by_cases hs : s = []
  · refine ⟨hs, ?_⟩
    rintro rfl
    by_contra hshort
    simp [expand, hs, Nat.not_le.mp hshort] at h
  · simp [expand, hs] at h

theorem length_group (ip digits : Bytes) : (ip ++ group digits).length = ip.length + 2 := by
  simp [group]

theorem parseGroups_colons {ip out : Bytes} {n : ℕ} {s : Bytes} {r : Bytes × Option ℕ × Bytes}
    (h : parseGroups ip none n s = some r) (hn : ip.length + 2 * n = 16)
    (hr : expand r = some out) : 2 ≤ s.count colon ∨ 12 ≤ ip.length + 2 * s.count colon := by
  obtain ⟨hend, hlong⟩ := expand_some hr
  generalize hellipsis : (none : Option ℕ) = ellipsis at h
  fun_induction parseGroups ip ellipsis n s with
  | case1 => omega
  | case2 => cases h
  | case3 ip ellipsis n s digits hlength hrest =>
    cases h
    have hlong := hlong hellipsis.symm
    rw [length_group] at hlong
    omega
  | case4 => cases h
  | case5 ip ellipsis n s digits hlength s' hroom =>
    have htwelve : ip.length = 12 := by
      by_contra hne
      exact hroom (.inl ⟨hellipsis.symm, hne⟩)
    omega
  | case6 => cases h
  | case7 => cases h
  | case8 => cases h
  | case9 ip ellipsis n s digits hlength c hpoint hc hnone hrest =>
    left
    have hs := digits_and_rest hrest
    rw [not_not.mp hc] at hs
    rw [hs, List.count_append]
    simp
  | case10 ip ellipsis n s digits hlength c hpoint hc s'' hnone hne hrest ih =>
    left
    have hs := digits_and_rest hrest
    rw [not_not.mp hc] at hs
    rw [hs, List.count_append, List.count_cons_self, List.count_cons_self]
    omega
  | case11 ip ellipsis n s digits hlength c hpoint hc d s'' hd hrest ih =>
    have hs := digits_and_rest hrest
    rw [not_not.mp hc] at hs
    have hcount : s.count colon =
        (s.takeWhile isHex).count colon + ((d :: s'').count colon + 1) := by
      conv_lhs => rw [hs]
      rw [List.count_append, List.count_cons_self]
    rw [length_group] at ih
    have hnext := ih (by omega) hellipsis h
    omega

theorem parseIPv6_text {s ip : Bytes} (h : parseIPv6 s = some ip) :
    (∀ c ∈ s, isAddressByte c = true) ∧ 2 ≤ s.count colon := by
  have hbytes : ∀ {ip ellipsis s out}, (parseGroups ip ellipsis 8 s).bind expand = some out →
      ∀ c ∈ s, isAddressByte c = true := by
    intro ip ellipsis s out h
    obtain ⟨r, hr, hexpand⟩ := Option.bind_eq_some_iff.mp h
    obtain ⟨used, hused, hbytes⟩ := parseGroups_bytes hr
    rw [(expand_some hexpand).1, List.append_nil] at hused
    rwa [hused]
  have hcolons : ∀ {s out}, (parseGroups [] none 8 s).bind expand = some out →
      2 ≤ s.count colon := by
    intro s out h
    obtain ⟨r, hr, hexpand⟩ := Option.bind_eq_some_iff.mp h
    have hcount := parseGroups_colons hr rfl hexpand
    simp only [List.length_nil] at hcount
    omega
  unfold parseIPv6 at h
  split_ifs at h
  rcases s with _ | ⟨a, _ | ⟨b, s'⟩⟩
  · exact ⟨hbytes h, hcolons h⟩
  · exact ⟨hbytes h, hcolons h⟩
  · dsimp only at h
    by_cases hstart : a = colon ∧ b = colon
    · rw [if_pos hstart] at h
      obtain ⟨rfl, rfl⟩ := hstart
      refine ⟨?_, by rw [List.count_cons_self, List.count_cons_self]; omega⟩
      have hrest : ∀ c ∈ s', isAddressByte c = true := by
        by_cases hs : s' = []
        · simp [hs]
        · rw [if_neg hs] at h
          exact hbytes h
      intro c hc
      rcases List.mem_cons.mp hc with rfl | hc
      · decide
      · rcases List.mem_cons.mp hc with rfl | hc
        · decide
        · exact hrest c hc
    · rw [if_neg hstart] at h
      exact ⟨hbytes h, hcolons h⟩

theorem parseIP_text {s ip : Bytes} (h : parseIP s = some ip) :
    s ≠ [] ∧ (∀ c ∈ s, isAddressByte c = true) ∧ (colon ∈ s → 2 ≤ s.count colon) := by
  obtain ⟨addr, haddr, -⟩ := Option.map_eq_some_iff.mp h
  unfold parseAddr at haddr
  split at haddr
  next => cases haddr
  next _ c hfound =>
    have hne : s ≠ [] := by
      rintro rfl
      cases hfound
    refine ⟨hne, ?_⟩
    by_cases hpoint : c = point
    · rw [if_pos hpoint] at haddr
      have hbytes := parseIPv4_bytes haddr
      refine ⟨fun d hd => isAddressByte_of_field (hbytes d hd), fun hmem => ?_⟩
      exact absurd (hbytes colon hmem) (by decide)
    · rw [if_neg hpoint] at haddr
      split_ifs at haddr with hcolon
      obtain ⟨hbytes, hcount⟩ := parseIPv6_text haddr
      exact ⟨hbytes, fun _ => hcount⟩

example : parseIP [0x3A, 0x3A, 0x66, 0x66, 0x66, 0x66, 0x3A, 0x31, 0x2E, 0x32, 0x2E, 0x33, 0x2E,
    0x34] = some (v4InV6Prefix ++ [1, 2, 3, 4]) := by decide

end IPAddress
