import RenoP.Network.ForwardedIP

/-!
# The address of a client

`ExtractIP` of `internal/utils/http.go` with the trusted proxies of `internal/config/server.go`. A
request has the address of its socket peer and its headers, where a header that is not there has
the empty text.
-/

namespace RenoP.Network

open IPAddress (IPNet parseCIDR parseIP slash)
open TrimSpace (blank trimLeft trimRight trimSpace)

structure ServerConfig where
  trustedProxies : List Bytes
  cdnIPHeader : Bytes
  parsedTrustedProxies : List IPNet

def ServerConfig.parseTrustedProxies (s : ServerConfig) : ServerConfig :=
  { s with parsedTrustedProxies := s.trustedProxies.filterMap fun proxyCIDR =>
      match if slash ∈ proxyCIDR then none else parseIP proxyCIDR with
      | some ip =>
        let bits : Bytes := if IPAddress.to4 ip = none then [0x31, 0x32, 0x38] else [0x33, 0x32]
        parseCIDR (proxyCIDR ++ slash :: bits)
      | none => parseCIDR proxyCIDR }

def ServerConfig.isTrustedProxy (s : ServerConfig) (ipStr : Bytes) : Bool :=
  match parseIP ipStr with
  | none => false
  | some ip => IPAddress.isLoopback ip || s.parsedTrustedProxies.any (·.contains ip)

def candidate (part : Bytes) : Option Bytes :=
  let candidate := normalizeForwardedIP part
  if candidate = [] ∨ parseIP candidate = none then none else some candidate

/-- The first candidate that is not a trusted proxy, in the order of the loop. -/
def clientOf (serverConfig : ServerConfig) : List Bytes → Option Bytes
  | [] => none
  | part :: parts =>
    match candidate part with
    | none => clientOf serverConfig parts
    | some ip => if serverConfig.isTrustedProxy ip then clientOf serverConfig parts else some ip

def extractIP (peerIP : Bytes) (get : Bytes → Bytes) (serverConfig : Option ServerConfig) : Bytes :=
  match serverConfig with
  | none => peerIP
  | some serverConfig =>
    if serverConfig.cdnIPHeader = [] ∨ serverConfig.isTrustedProxy peerIP = false then peerIP
    else
      let val := trimSpace (get serverConfig.cdnIPHeader)
      if val = [] then peerIP
      else
        let parts := val.splitOn comma
        match clientOf serverConfig parts.reverse with
        | some ip => ip
        | none => (parts.findSome? candidate).getD peerIP

def Appended (address header header' : Bytes) : Prop :=
  ∃ element, Element address element ∧
    (header' = header ++ comma :: element ∨ (header = [] ∧ header' = element))

/-- How a request of a client reaches its next peer: with the header that the client has sent, or
through trusted proxies that append the address of their peer. -/
inductive Travels (s : ServerConfig) (client sent : Bytes) : Bytes → Bytes → Prop
  | sent : Travels s client sent client sent
  | proxy {peer header header'} (proxy) (htrusted : s.isTrustedProxy proxy = true)
      (happend : Appended peer header header') (h : Travels s client sent peer header) :
      Travels s client sent proxy header'

section

variable {s : ServerConfig} {client sent peer header : Bytes}

theorem candidate_element {address element : Bytes} (hip : parseIP address ≠ none)
    (h : Element address element) : candidate element = some address := by
  obtain ⟨ip, hsome⟩ := Option.ne_none_iff_exists'.mp hip
  unfold candidate
  dsimp only
  rw [normalize_element hip h, if_neg (not_or.mpr ⟨(IPAddress.parseIP_text hsome).1, hip⟩)]

theorem trusted_address (h : s.isTrustedProxy peer = true) : parseIP peer ≠ none := by
  intro hnone
  rw [ServerConfig.isTrustedProxy, hnone] at h
  cases h

def EndsWith (s : ServerConfig) (client value : Bytes) : Prop :=
  ∃ before element after, value.splitOn comma = before ++ element :: after ∧
    candidate element = some client ∧
    ∀ x ∈ after, ∃ proxy, candidate x = some proxy ∧ s.isTrustedProxy proxy = true

theorem endsWith_ne_nil {value : Bytes} (h : EndsWith s client value) : value ≠ [] := by
  obtain ⟨before, element, after, hsplit, helement, -⟩ := h
  rintro rfl
  have hmem : element ∈ ([] : Bytes).splitOn comma := by simp [hsplit]
  rw [List.mem_singleton.mp hmem] at helement
  cases helement

theorem splitOn_element {element : Bytes} (h : comma ∉ element) (value : Bytes) :
    (value ++ comma :: element).splitOn comma = value.splitOn comma ++ [element] := by
  rw [List.splitOn_append_cons_self, List.splitOn_eq_singleton h]

theorem endsWith_append {value element next : Bytes} (hip : parseIP peer ≠ none)
    (hpeer : peer = client ∨ (s.isTrustedProxy peer = true ∧ EndsWith s client value))
    (helement : Element peer element)
    (hnext : next = value ++ comma :: element ∨ (value = [] ∧ next = element)) :
    EndsWith s client next := by
  have hcomma := element_no_comma hip helement
  have hcandidate := candidate_element hip helement
  rcases hpeer with rfl | ⟨htrusted, hvalue⟩
  · rcases hnext with rfl | ⟨-, rfl⟩
    · exact ⟨value.splitOn comma, element, [], splitOn_element hcomma value, hcandidate, by simp⟩
    · exact ⟨[], next, [], List.splitOn_eq_singleton hcomma, hcandidate, by simp⟩
  · rcases hnext with rfl | ⟨hempty, -⟩
    · obtain ⟨before, e, after, hsplit, he, hafter⟩ := hvalue
      refine ⟨before, e, after ++ [element], ?_, he, ?_⟩
      · rw [splitOn_element hcomma, hsplit, List.append_assoc, List.cons_append]
      · intro x hx
        rcases List.mem_append.mp hx with hx | hx
        · exact hafter x hx
        · rw [List.mem_singleton.mp hx]
          exact ⟨peer, hcandidate, htrusted⟩
    · exact absurd hempty (endsWith_ne_nil hvalue)

theorem appended_trim {header' : Bytes} (hip : parseIP peer ≠ none)
    (h : Appended peer header header') :
    (∃ element, Element peer element ∧ (trimLeft header' = trimLeft header ++ comma :: element ∨
      (trimLeft header = [] ∧ trimLeft header' = element))) ∧
    ∃ element, Element peer element ∧ (trimSpace header' = trimLeft header ++ comma :: element ∨
      (trimLeft header = [] ∧ trimSpace header' = element)) := by
  obtain ⟨ip, hsome⟩ := Option.ne_none_iff_exists'.mp hip
  obtain ⟨hne, hbytes, -⟩ := IPAddress.parseIP_text hsome
  obtain ⟨_, ⟨before, text, after, rfl, hwritten, hbefore, hafter⟩, hheader⟩ := h
  obtain ⟨hleft, hright⟩ := trimSpace_written hbytes hne hwritten hbefore hafter
  have hcomma : TrimSpace.visible comma = true := by decide
  have hnil : ∀ c ∈ ([] : Bytes), blank c = true := fun c hc => absurd hc List.not_mem_nil
  rcases hheader with rfl | ⟨rfl, rfl⟩
  · have hstart := TrimSpace.trimLeft_append hcomma header (before ++ (text ++ after))
    refine ⟨⟨_, ⟨before, text, after, rfl, hwritten, hbefore, hafter⟩, .inl hstart⟩,
      before ++ (text ++ []), ⟨before, text, [], rfl, hwritten, hbefore, hnil⟩, .inl ?_⟩
    have hends := hright (trimLeft header ++ comma :: before)
    rw [trimSpace, hstart]
    simpa using hends
  · refine ⟨⟨text ++ after, ⟨[], text, after, rfl, hwritten, hnil, hafter⟩, .inr ⟨rfl, hleft⟩⟩,
      text ++ [], ⟨[], text, [], rfl, hwritten, hnil, hnil⟩, .inr ⟨rfl, ?_⟩⟩
    have hends := hright []
    rw [trimSpace, hleft]
    simpa using hends

theorem travels_endsWith (hclient : parseIP client ≠ none)
    (h : Travels s client sent peer header) :
    (peer = client ∧ header = sent) ∨ (s.isTrustedProxy peer = true ∧
      EndsWith s client (trimLeft header) ∧ EndsWith s client (trimSpace header)) := by
  induction h with
  | sent => exact .inl ⟨rfl, rfl⟩
  | @proxy peer header header' proxy htrusted happend _ ih =>
    right
    have hpeer : peer = client ∨
        (s.isTrustedProxy peer = true ∧ EndsWith s client (trimLeft header)) :=
      ih.imp (·.1) fun h => ⟨h.1, h.2.1⟩
    have hip : parseIP peer ≠ none := by
      rcases hpeer with rfl | ⟨htrusted, -⟩
      · exact hclient
      · exact trusted_address htrusted
    obtain ⟨⟨element, helement, hleft⟩, element', helement', hboth⟩ := appended_trim hip happend
    exact ⟨htrusted, endsWith_append hip hpeer helement hleft,
      endsWith_append hip hpeer helement' hboth⟩

theorem clientOf_passes {xs rest : List Bytes} {element : Bytes}
    (hxs : ∀ x ∈ xs, ∃ proxy, candidate x = some proxy ∧ s.isTrustedProxy proxy = true)
    (helement : candidate element = some client) (hclient : s.isTrustedProxy client = false) :
    clientOf s (xs ++ element :: rest) = some client := by
  induction xs with
  | nil =>
    rw [List.nil_append, clientOf, helement]
    simp [hclient]
  | cons x xs ih =>
    obtain ⟨proxy, hx, htrusted⟩ := hxs x (List.mem_cons_self ..)
    rw [List.cons_append, clientOf, hx]
    dsimp only
    rw [if_pos htrusted]
    exact ih fun y hy => hxs y (List.mem_cons_of_mem x hy)

theorem extractIP_untrusted (get : Bytes → Bytes) (h : s.isTrustedProxy peer = false) :
    extractIP peer get (some s) = peer := by
  unfold extractIP
  dsimp only
  rw [if_pos (.inr h)]

end

/-- Where a forwarding header is named, it gives the client that the trusted proxies have seen,
whatever the client has sent; an untrusted peer is taken for the client. -/
theorem extractIP_client (s : ServerConfig) :
    (s.cdnIPHeader ≠ [] → ∀ client sent peer header get, parseIP client ≠ none →
      s.isTrustedProxy client = false → Travels s client sent peer header →
      get s.cdnIPHeader = header → extractIP peer get (some s) = client) ∧
    ∀ peer get, s.isTrustedProxy peer = false → extractIP peer get (some s) = peer := by
  refine ⟨?_, fun peer get h => extractIP_untrusted get h⟩
  intro hnamed client sent peer header get hip hclient htravels hget
  rcases travels_endsWith hip htravels with ⟨rfl, -⟩ | ⟨htrusted, -, hends⟩
  · exact extractIP_untrusted get hclient
  · have hvalue := endsWith_ne_nil hends
    obtain ⟨before, element, after, hsplit, helement, hafter⟩ := hends
    unfold extractIP
    dsimp only
    rw [if_neg (by simp [hnamed, htrusted]), hget, if_neg hvalue, hsplit, List.reverse_append,
      List.reverse_cons, List.append_assoc, List.singleton_append,
      clientOf_passes (fun x hx => hafter x (List.mem_reverse.mp hx)) helement hclient]

def ascii (text : String) : Bytes := text.toList.map fun c => UInt8.ofNat c.toNat

def nearProxies : ServerConfig :=
  ServerConfig.parseTrustedProxies ⟨[ascii "10.0.0.0/8"], ascii "X-Forwarded-For", []⟩

/-- The client 203.0.113.50 sends the address 1.1.1.1, through 10.0.0.7 and a local proxy. -/
theorem extractIP_near : extractIP (ascii "127.0.0.1")
    (fun _ => ascii "1.1.1.1" ++ comma :: (ascii " \"203.0.113.50:4711\"" ++
      comma :: ascii "[10.0.0.7]")) (some nearProxies) = ascii "203.0.113.50" := by
  have hlocal : nearProxies.isTrustedProxy (ascii "127.0.0.1") = true := by decide +kernel
  have hnear : nearProxies.isTrustedProxy (ascii "10.0.0.7") = true := by decide +kernel
  have hwritten : Written (ascii "203.0.113.50") (ascii "\"203.0.113.50:4711\"") :=
    .quoted 0x22 _ (by decide) (.port (ascii "4711") (by decide +kernel) (by decide +kernel))
  refine (extractIP_client nearProxies).1 (by decide) _ (ascii "1.1.1.1") _ _ _ (by decide +kernel)
    (by decide +kernel) (.proxy _ hlocal ⟨ascii "[10.0.0.7]", ⟨[], _, [], ?_, .bracket, by simp,
      by simp⟩, .inl ?_⟩ (.proxy (ascii "10.0.0.7") hnear ⟨ascii " \"203.0.113.50:4711\"",
        ⟨[0x20], _, [], ?_, hwritten, by decide +kernel, by simp⟩, .inl rfl⟩ .sent)) rfl
  · decide +kernel
  · simp
  · decide +kernel

def unnamedHeader : ServerConfig := ⟨[], [], []⟩

/-- Without a name for the header, a local proxy is taken for the client. -/
theorem unnamed_header_proxy : ¬∀ client sent peer header get, parseIP client ≠ none →
    unnamedHeader.isTrustedProxy client = false →
    Travels unnamedHeader client sent peer header → (∀ name, get name = header) →
    extractIP peer get (some unnamedHeader) = client := by
  intro h
  have hlocal : unnamedHeader.isTrustedProxy (ascii "127.0.0.1") = true := by decide +kernel
  have hclient := h (ascii "203.0.113.50") [] (ascii "127.0.0.1") (ascii "203.0.113.50")
    (fun _ => ascii "203.0.113.50") (by decide +kernel) (by decide +kernel)
    (.proxy _ hlocal ⟨ascii "203.0.113.50", ⟨[], _, [], by simp, .plain, by simp, by simp⟩,
      .inr ⟨rfl, rfl⟩⟩ .sent) (fun _ => rfl)
  exact absurd hclient (by decide +kernel)

end RenoP.Network
