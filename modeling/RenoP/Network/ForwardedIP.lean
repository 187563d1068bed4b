import RenoP.Lib.IPAddress
import RenoP.Lib.TrimSpace

/-!
# Addresses in forwarding headers

`normalizeForwardedIP` of `internal/utils/http.go` on the bytes of a text, and the ways in which
proxies write the address of a peer.
-/

namespace RenoP.Network

open IPAddress (colon isAddressByte isDigit parseIP)
open TrimSpace (blank trimLeft trimRight trimSpace visible)

abbrev Bytes := List UInt8

def comma : UInt8 := 0x2C
def openBracket : UInt8 := 0x5B
def closeBracket : UInt8 := 0x5D

def isQuote (c : UInt8) : Bool := decide (c = 0x22) || decide (c = 0x27)

def trimQuotes (s : Bytes) : Bytes := ((s.dropWhile isQuote).reverse.dropWhile isQuote).reverse

/-- The host of `net.SplitHostPort`, for a text that does not start with a bracket. -/
def splitHostPort (hostport : Bytes) : Option Bytes :=
  if colon ∉ hostport then none
  else
    let host := (hostport.reverse.dropWhile (· ≠ colon)).tail.reverse
    if colon ∈ host then none
    else if openBracket ∈ hostport ∨ closeBracket ∈ hostport then none
    else some host

def stripPort : Bytes → Bytes
  | [] => []
  | c :: s =>
    if c = openBracket then if closeBracket ∈ s then s.takeWhile (· ≠ closeBracket) else []
    else
      match splitHostPort (c :: s) with
      | some host => host
      | none => c :: s

def normalizeForwardedIP (s : Bytes) : Bytes := stripPort (trimQuotes (trimSpace s))

/-- An address as a proxy may write it: plain, with a port or in brackets, and quoted. -/
inductive Written (address : Bytes) : Bytes → Prop
  | plain : Written address address
  | port (port) (hport : ∀ c ∈ port, isDigit c = true) (hcolon : colon ∉ address) :
      Written address (address ++ colon :: port)
  | bracket : Written address (openBracket :: (address ++ [closeBracket]))
  | bracketPort (port) (hport : ∀ c ∈ port, isDigit c = true) :
      Written address (openBracket :: (address ++ closeBracket :: colon :: port))
  | quoted (quote text) (hquote : isQuote quote = true) (h : Written address text) :
      Written address (quote :: (text ++ [quote]))

def Element (address element : Bytes) : Prop :=
  ∃ before text after, element = before ++ (text ++ after) ∧ Written address text ∧
    (∀ c ∈ before, blank c = true) ∧ ∀ c ∈ after, blank c = true

theorem addressByte_plain {c : UInt8} (h : isAddressByte c = true) : visible c = true ∧
    isQuote c = false ∧ c ≠ comma ∧ c ≠ openBracket ∧ c ≠ closeBracket := by
  have hall : ∀ n < 256, isAddressByte (UInt8.ofNat n) = true → visible (UInt8.ofNat n) = true ∧
      isQuote (UInt8.ofNat n) = false ∧ UInt8.ofNat n ≠ comma ∧ UInt8.ofNat n ≠ openBracket ∧
      UInt8.ofNat n ≠ closeBracket := by
    decide +kernel
  have hc := hall c.toNat c.toNat_lt
  rw [UInt8.ofNat_toNat] at hc
  exact hc h

theorem digit_addressByte {c : UInt8} (h : isDigit c = true) : isAddressByte c = true :=
  IPAddress.isAddressByte_of_field (.inl h)

section

variable {address text : Bytes}

theorem not_mem_address (h : ∀ c ∈ address, isAddressByte c = true) : comma ∉ address ∧
    openBracket ∉ address ∧ closeBracket ∉ address :=
  ⟨fun hm => (addressByte_plain (h _ hm)).2.2.1 rfl,
    fun hm => (addressByte_plain (h _ hm)).2.2.2.1 rfl,
    fun hm => (addressByte_plain (h _ hm)).2.2.2.2 rfl⟩

theorem written_bytes (hbytes : ∀ c ∈ address, isAddressByte c = true) (h : Written address text) :
    ∀ c ∈ text, visible c = true ∧ c ≠ comma := by
  have haddress : ∀ c ∈ address, visible c = true ∧ c ≠ comma := fun c hc =>
    ⟨(addressByte_plain (hbytes c hc)).1, (addressByte_plain (hbytes c hc)).2.2.1⟩
  have hdigits : ∀ port : Bytes, (∀ c ∈ port, isDigit c = true) →
      ∀ c ∈ port, visible c = true ∧ c ≠ comma := fun port hport c hc =>
    ⟨(addressByte_plain (digit_addressByte (hport c hc))).1,
      (addressByte_plain (digit_addressByte (hport c hc))).2.2.1⟩
  have hmarks : ∀ c ∈ [colon, openBracket, closeBracket], visible c = true ∧ c ≠ comma := by
    decide +kernel
  induction h with
  | plain => exact haddress
  | port port hport hcolon =>
    intro c hc
    rcases List.mem_append.mp hc with hc | hc
    · exact haddress c hc
    · rcases List.mem_cons.mp hc with rfl | hc
      · exact hmarks colon (by decide)
      · exact hdigits port hport c hc
  | bracket =>
    intro c hc
    rcases List.mem_cons.mp hc with rfl | hc
    · exact hmarks openBracket (by decide)
    · rcases List.mem_append.mp hc with hc | hc
      · exact haddress c hc
      · rw [List.mem_singleton.mp hc]
        exact hmarks closeBracket (by decide)
  | bracketPort port hport =>
    intro c hc
    rcases List.mem_cons.mp hc with rfl | hc
    · exact hmarks openBracket (by decide)
    · rcases List.mem_append.mp hc with hc | hc
      · exact haddress c hc
      · rcases List.mem_cons.mp hc with rfl | hc
        · exact hmarks closeBracket (by decide)
        · rcases List.mem_cons.mp hc with rfl | hc
          · exact hmarks colon (by decide)
          · exact hdigits port hport c hc
  | quoted quote text hquote _ ih =>
    have hvisible : visible quote = true ∧ quote ≠ comma := by
      have hcases : quote = 0x22 ∨ quote = 0x27 := by simpa [isQuote] using hquote
      rcases hcases with rfl | rfl
      · decide
      · decide
    intro c hc
    rcases List.mem_cons.mp hc with rfl | hc
    · exact hvisible
    · rcases List.mem_append.mp hc with hc | hc
      · exact ih c hc
      · rw [List.mem_singleton.mp hc]
        exact hvisible

theorem written_ne_nil (hne : address ≠ []) (h : Written address text) : text ≠ [] := by
  cases h with
  | plain => exact hne
  | port => simp
  | bracket => simp
  | bracketPort => simp
  | quoted => simp

theorem written_mem (hne : address ≠ []) (h : Written address text) :
    ∃ c ∈ text, c ∈ address := by
  obtain ⟨c, s, rfl⟩ := List.exists_cons_of_ne_nil hne
  refine ⟨c, ?_, List.mem_cons_self ..⟩
  induction h with
  | plain => exact List.mem_cons_self ..
  | port => simp
  | bracket => simp
  | bracketPort => simp
  | quoted quote text hquote h ih => simp [ih]

theorem trimQuotes_plain {s : Bytes} (h : ∀ c ∈ s, isQuote c = false) : trimQuotes s = s := by
  have hdrop : ∀ s : Bytes, (∀ c ∈ s, isQuote c = false) → s.dropWhile isQuote = s := by
    intro s hs
    cases s with
    | nil => rfl
    | cons c s => rw [List.dropWhile_cons_of_neg (by simp [hs c (List.mem_cons_self ..)])]
  unfold trimQuotes
  rw [hdrop s h, hdrop s.reverse fun c hc => h c (List.mem_reverse.mp hc), List.reverse_reverse]

theorem trimQuotes_quoted {quote : UInt8} {s : Bytes} (hquote : isQuote quote = true)
    (h : ∃ c ∈ s, isQuote c = false) : trimQuotes (quote :: (s ++ [quote])) = trimQuotes s := by
  have hdrop : ∀ (s t : Bytes), (∃ c ∈ s, isQuote c = false) →
      (s ++ t).dropWhile isQuote = s.dropWhile isQuote ++ t := by
    intro s t
    induction s with
    | nil =>
      rintro ⟨c, hc, -⟩
      cases hc
    | cons d s ih =>
      rintro ⟨c, hc, hplain⟩
      rw [List.cons_append, List.dropWhile_cons, List.dropWhile_cons]
      split_ifs with hd
      · refine ih ⟨c, ?_, hplain⟩
        rcases List.mem_cons.mp hc with rfl | hc
        · rw [hd] at hplain
          cases hplain
        · exact hc
      · rfl
  unfold trimQuotes
  rw [List.dropWhile_cons_of_pos hquote, hdrop s [quote] h, List.reverse_append,
    List.reverse_singleton, List.singleton_append, List.dropWhile_cons_of_pos hquote]

theorem splitHostPort_port {port : Bytes} (hport : colon ∉ port) (hcolon : colon ∉ address)
    (hopen : openBracket ∉ address ++ colon :: port)
    (hclose : closeBracket ∉ address ++ colon :: port) :
    splitHostPort (address ++ colon :: port) = some address := by
  have hhost : ((address ++ colon :: port).reverse.dropWhile (· ≠ colon)).tail.reverse =
      address := by
    have hreverse : (address ++ colon :: port).reverse =
        port.reverse ++ colon :: address.reverse := by simp
    rw [hreverse, List.dropWhile_append_of_pos]
    · simp
    · intro c hc
      have hne : c ≠ colon := fun he => hport (he ▸ List.mem_reverse.mp hc)
      simpa using hne
  unfold splitHostPort
  dsimp only
  rw [hhost, if_neg (by simp), if_neg hcolon, if_neg (by simp [hopen, hclose])]

theorem splitHostPort_colons (hcolons : colon ∈ address → 2 ≤ address.count colon) :
    splitHostPort address = none := by
  unfold splitHostPort
  by_cases hmem : colon ∈ address
  · rw [if_neg (not_not.mpr hmem)]
    have hhost : colon ∈ (address.reverse.dropWhile (· ≠ colon)).tail.reverse := by
      have hsplit := List.takeWhile_append_dropWhile (p := (· ≠ colon)) (l := address.reverse)
      have hcount := congrArg (List.count colon) hsplit
      rw [List.count_append, List.count_reverse] at hcount
      have hzero : (address.reverse.takeWhile (· ≠ colon)).count colon = 0 := by
        refine List.count_eq_zero.mpr fun hm => ?_
        simpa using List.mem_takeWhile_imp hm
      have htwo := hcolons hmem
      cases hrest : address.reverse.dropWhile (· ≠ colon) with
      | nil =>
        rw [hrest, List.count_nil] at hcount
        omega
      | cons c rest =>
        rw [hrest, List.count_cons] at hcount
        refine List.mem_reverse.mpr (List.count_pos_iff.mp ?_)
        rw [List.tail_cons]
        split_ifs at hcount with hc
        · omega
        · omega
    exact if_pos hhost
  · exact if_pos hmem

theorem stripPort_plain {s : Bytes} (h : openBracket ∉ s) :
    stripPort s = (splitHostPort s).getD s := by
  cases s with
  | nil => rfl
  | cons c s =>
    have hc : c ≠ openBracket := fun he => h (he ▸ List.mem_cons_self ..)
    unfold stripPort
    dsimp only
    rw [if_neg hc]
    cases splitHostPort (c :: s) with
    | none => rfl
    | some host => rfl

theorem stripPort_bracket {s : Bytes} (h : closeBracket ∈ s) :
    stripPort (openBracket :: s) = s.takeWhile (· ≠ closeBracket) := by
  unfold stripPort
  dsimp only
  rw [if_pos rfl, if_pos h]

theorem stripPort_written (hip : parseIP address ≠ none) (h : Written address text) :
    stripPort (trimQuotes text) = address := by
  obtain ⟨ip, hip⟩ := Option.ne_none_iff_exists'.mp hip
  obtain ⟨hne, hbytes, hcolons⟩ := IPAddress.parseIP_text hip
  obtain ⟨-, hopen, hclose⟩ := not_mem_address hbytes
  have hplain : ∀ c ∈ address, isQuote c = false := fun c hc => (addressByte_plain (hbytes c hc)).2.1
  have hdigits : ∀ port : Bytes, (∀ c ∈ port, isDigit c = true) → ∀ c ∈ port,
      isQuote c = false ∧ c ≠ colon ∧ c ≠ openBracket ∧ c ≠ closeBracket := by
    intro port hport c hc
    have hc' := addressByte_plain (digit_addressByte (hport c hc))
    refine ⟨hc'.2.1, ?_, hc'.2.2.2⟩
    rintro rfl
    exact absurd (hport colon hc) (by decide)
  have htake : ∀ s, (address ++ closeBracket :: s).takeWhile (· ≠ closeBracket) = address := by
    intro s
    rw [List.takeWhile_append_of_pos]
    · simp
    · intro c hc
      have hc' : c ≠ closeBracket := fun he => hclose (he ▸ hc)
      simpa using hc'
  induction h with
  | plain =>
    rw [trimQuotes_plain hplain, stripPort_plain hopen, splitHostPort_colons hcolons]
    rfl
  | port port hport hcolon =>
    have hd := hdigits port hport
    rw [trimQuotes_plain]
    · have hopen' : openBracket ∉ address ++ colon :: port := by
        simpa [hopen] using ⟨by decide, fun hm => (hd _ hm).2.2.1 rfl⟩
      have hclose' : closeBracket ∉ address ++ colon :: port := by
        simpa [hclose] using ⟨by decide, fun hm => (hd _ hm).2.2.2 rfl⟩
      rw [stripPort_plain hopen',
        splitHostPort_port (fun hm => (hd _ hm).2.1 rfl) hcolon hopen' hclose']
      rfl
    · intro c hc
      rcases List.mem_append.mp hc with hc | hc
      · exact hplain c hc
      · rcases List.mem_cons.mp hc with rfl | hc
        · decide
        · exact (hd c hc).1
  | bracket =>
    rw [trimQuotes_plain]
    · rw [stripPort_bracket (by simp), htake]
    · intro c hc
      rcases List.mem_cons.mp hc with rfl | hc
      · decide
      · rcases List.mem_append.mp hc with hc | hc
        · exact hplain c hc
        · rw [List.mem_singleton.mp hc]
          decide
  | bracketPort port hport =>
    rw [trimQuotes_plain]
    · rw [stripPort_bracket (by simp), htake]
    · intro c hc
      rcases List.mem_cons.mp hc with rfl | hc
      · decide
      · rcases List.mem_append.mp hc with hc | hc
        · exact hplain c hc
        · rcases List.mem_cons.mp hc with rfl | hc
          · decide
          · rcases List.mem_cons.mp hc with rfl | hc
            · decide
            · exact (hdigits port hport c hc).1
  | quoted quote text hquote h ih =>
    obtain ⟨c, hc, haddress⟩ := written_mem hne h
    rw [trimQuotes_quoted hquote ⟨c, hc, hplain c haddress⟩]
    exact ih

theorem trimSpace_written (hbytes : ∀ c ∈ address, isAddressByte c = true) (hne : address ≠ [])
    (h : Written address text) {before after : Bytes} (hbefore : ∀ c ∈ before, blank c = true)
    (hafter : ∀ c ∈ after, blank c = true) :
    trimLeft (before ++ (text ++ after)) = text ++ after ∧
      ∀ s, trimRight (s ++ (text ++ after)) = s ++ text := by
  have hvisible := written_bytes hbytes h
  have htext := written_ne_nil hne h
  constructor
  · obtain ⟨c, t, rfl⟩ := List.exists_cons_of_ne_nil htext
    rw [TrimSpace.trimLeft_blanks hbefore]
    exact TrimSpace.trimLeft_append (hvisible c (List.mem_cons_self ..)).1 [] (t ++ after)
  · intro s
    obtain ⟨t, c, rfl⟩ := (List.eq_nil_or_concat text).resolve_left htext
    rw [List.concat_eq_append] at hvisible ⊢
    have hsplit : s ++ (t ++ [c] ++ after) = (s ++ t) ++ c :: after := by simp
    rw [hsplit, TrimSpace.trimRight_append (hvisible c (by simp)).1,
      TrimSpace.trimRight_blanks hafter]
    simp

theorem normalize_element {element : Bytes} (hip : parseIP address ≠ none)
    (h : Element address element) : normalizeForwardedIP element = address := by
  obtain ⟨ip, hsome⟩ := Option.ne_none_iff_exists'.mp hip
  obtain ⟨hne, hbytes, -⟩ := IPAddress.parseIP_text hsome
  obtain ⟨before, text, after, rfl, hwritten, hbefore, hafter⟩ := h
  obtain ⟨hleft, hright⟩ := trimSpace_written hbytes hne hwritten hbefore hafter
  have hright := hright []
  rw [List.nil_append, List.nil_append] at hright
  rw [normalizeForwardedIP, trimSpace, hleft, hright]
  exact stripPort_written hip hwritten

theorem element_no_comma {element : Bytes} (hip : parseIP address ≠ none)
    (h : Element address element) : comma ∉ element := by
  obtain ⟨ip, hsome⟩ := Option.ne_none_iff_exists'.mp hip
  obtain ⟨-, hbytes, -⟩ := IPAddress.parseIP_text hsome
  obtain ⟨before, text, after, rfl, hwritten, hbefore, hafter⟩ := h
  intro hmem
  have hblank : blank comma = false := by decide
  rcases List.mem_append.mp hmem with hm | hm
  · rw [hbefore comma hm] at hblank
    cases hblank
  · rcases List.mem_append.mp hm with hm | hm
    · exact (written_bytes hbytes hwritten comma hm).2 rfl
    · rw [hafter comma hm] at hblank
      cases hblank

end

end RenoP.Network
