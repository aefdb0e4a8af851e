import Scriptorium.Fetch

/-!
# What the host check of a fetch guards

The check looks a host up once; the request looks it up again, and goes wherever
its redirects lead.  `answers` are the lookups a request can get to, and
`contactsOnlyPublic_iff` says that a fetch stays away from disallowed addresses
exactly when all of them do.
-/

namespace Scriptorium

/-- The answers of the lookups a request can get to: that of its host, and, while
    the servers reply with redirects, that of every host on the way. -/
def answers (net : Network) (left hop : Nat) (url : Url) : List (List IpAddr) :=
  if url.scheme ≠ "http" ∧ url.scheme ≠ "https" then []
  else
    match hopAddrs net hop url.host with
    | .error _ => []
    | .ok [] => []
    | .ok (ip :: ips) => (ip :: ips) ::
      match net.reply hop url, left with
      | .redirect location, left + 1 => answers net left (hop + 1) location
      | _, _ => []

/-- The URL a fetch sends a request to; `none` when it is refused before. -/
def requestSent (cfg : FetchConfig) (net : Network) (url : String)
    (headers : List (String × String)) : Option Url :=
  match net.parse url with
  | .error _ => none
  | .ok parsed =>
    if (parsed.scheme = "http" ∨ parsed.scheme = "https") ∧
        (cfg.allowPrivateNetwork = true ∨ assertPublicHost net parsed = .ok ()) ∧
        headers.all (fun header => net.validHeader header.1 header.2) = true then some parsed
    else none

/-- Whichever addresses accept a connection, the fetch opens none to a disallowed one. -/
def ContactsOnlyPublic (cfg : FetchConfig) (net : Network) (url : String)
    (headers : List (String × String)) : Prop :=
  ∀ accepts : Nat → IpAddr → Bool,
    ∀ ip ∈ (sendRequest cfg { net with accepts } url headers).1, isDisallowed ip = false

/-! ### Connecting -/

theorem mem_of_mem_connect {net : Network} {hop : Nat} {ips : List IpAddr} {ip : IpAddr}
    (h : ip ∈ (connect net hop ips).1) : ip ∈ ips := by
  induction ips with
  | nil => simp [connect] at h
  | cons first ips ih =>
    unfold connect at h
    split at h
    · rw [List.mem_singleton.mp h]
      exact List.mem_cons_self
    · rcases List.mem_cons.mp h with rfl | h
      · exact List.mem_cons_self
      · exact List.mem_cons_of_mem _ (ih h)

/-- An address that alone accepts is tried. -/
theorem mem_connect_of_only {net : Network} {hop : Nat} {ips : List IpAddr} {ip : IpAddr}
    (honly : ∀ other, net.accepts hop other = decide (other = ip)) (h : ip ∈ ips) :
    ip ∈ (connect net hop ips).1 := by
  induction ips with
  | nil => cases h
  | cons first ips ih =>
    unfold connect
    by_cases hfirst : first = ip
    · simp [honly, hfirst]
    · have hrest : ip ∈ ips := (List.mem_cons.mp h).resolve_left (Ne.symm hfirst)
      simp [honly, hfirst, ih hrest]

theorem connect_of_accepts {net : Network} {hop : Nat} {ip : IpAddr} {ips : List IpAddr}
    (h : net.accepts hop ip = true) : connect net hop (ip :: ips) = ([ip], true) := by
  simp [connect, h]

/-! ### Following redirects -/

/-- Where a request goes once its lookup has answered: to the addresses of the
    answer, and, if one accepts and the server redirects, on to the next host. -/
theorem contacts_of_answer {net : Network} {left hop : Nat} {url : Url} {addrs : List IpAddr}
    (hscheme : ¬ (url.scheme ≠ "http" ∧ url.scheme ≠ "https"))
    (haddrs : hopAddrs net hop url.host = .ok addrs) :
    (sendHops net left hop url).1 = (connect net hop addrs).1 ++
      match (connect net hop addrs).2, net.reply hop url, left with
      | true, .redirect location, left + 1 => (sendHops net left (hop + 1) location).1
      | _, _, _ => [] := by
  rcases hconnect : connect net hop addrs with ⟨tried, connected⟩
  rw [sendHops.eq_def net left hop url, if_neg hscheme, haddrs]
  simp only [hconnect]
  cases connected with
  | false => simp
  | true =>
    rcases hreply : net.reply hop url with location | resp | message
    · cases left with
      | zero => simp
      | succ left => simp
    · simp
    · simp

theorem answers_of_answer {net : Network} {left hop : Nat} {url : Url} {ip : IpAddr}
    {ips : List IpAddr} (hscheme : ¬ (url.scheme ≠ "http" ∧ url.scheme ≠ "https"))
    (haddrs : hopAddrs net hop url.host = .ok (ip :: ips)) :
    answers net left hop url = (ip :: ips) ::
      match net.reply hop url, left with
      | .redirect location, left + 1 => answers net left (hop + 1) location
      | _, _ => [] := by
  rw [answers.eq_def net left hop url, if_neg hscheme, haddrs]

/-- What the lookup of a hop can come to. -/
theorem hop_cases (net : Network) (left hop : Nat) (url : Url) :
    ((sendHops net left hop url).1 = [] ∧ answers net left hop url = []) ∨
      ¬ (url.scheme ≠ "http" ∧ url.scheme ≠ "https") ∧
        ∃ ip ips, hopAddrs net hop url.host = .ok (ip :: ips) := by
  by_cases hscheme : url.scheme ≠ "http" ∧ url.scheme ≠ "https"
  · left
    unfold sendHops answers
    rw [if_pos hscheme, if_pos hscheme]
    exact ⟨rfl, rfl⟩
  · rcases haddrs : hopAddrs net hop url.host with e | addrs
    · left
      unfold sendHops answers
      rw [if_neg hscheme, if_neg hscheme, haddrs]
      exact ⟨rfl, rfl⟩
    · cases addrs with
      | nil =>
        left
        constructor
        · rw [contacts_of_answer hscheme haddrs]
          simp [connect]
        · unfold answers
          rw [if_neg hscheme, haddrs]
      | cons ip ips => exact Or.inr ⟨hscheme, ip, ips, rfl⟩

/-- A request connects to nothing but what its lookups answered. -/
theorem mem_answers_of_mem_sendHops {net : Network} {left hop : Nat} {url : Url} {ip : IpAddr}
    (h : ip ∈ (sendHops net left hop url).1) : ∃ addrs ∈ answers net left hop url, ip ∈ addrs := by
  induction left generalizing hop url with
  | zero =>
    rcases hop_cases net 0 hop url with ⟨hnone, -⟩ | ⟨hscheme, first, ips, haddrs⟩
    · rw [hnone] at h
      cases h
    · rw [contacts_of_answer hscheme haddrs] at h
      rw [answers_of_answer hscheme haddrs]
      have htried : ip ∈ (connect net hop (first :: ips)).1 := by simpa using h
      exact ⟨first :: ips, List.mem_cons_self, mem_of_mem_connect htried⟩
  | succ left ih =>
    rcases hop_cases net (left + 1) hop url with ⟨hnone, -⟩ | ⟨hscheme, first, ips, haddrs⟩
    · rw [hnone] at h
      cases h
    · rw [contacts_of_answer hscheme haddrs] at h
      rw [answers_of_answer hscheme haddrs]
      rcases List.mem_append.mp h with h | h
      · exact ⟨first :: ips, List.mem_cons_self, mem_of_mem_connect h⟩
      · -- the rest of the chain, if there is one
        rcases hreply : net.reply hop url with location | resp | message
        · simp only [hreply] at h ⊢
          cases hconnected : (connect net hop (first :: ips)).2 with
          | false => simp [hconnected] at h
          | true =>
            simp only [hconnected] at h
            obtain ⟨addrs, haddrs, hip⟩ := ih h
            exact ⟨addrs, List.mem_cons_of_mem _ haddrs, hip⟩
        · simp [hreply] at h
        · simp [hreply] at h

/-- The hosts that let a request come as far as hop `last` and there accept only `ip`. -/
def acceptsAt (last : Nat) (ip : IpAddr) : Nat → IpAddr → Bool :=
  fun hop other => decide (hop ≠ last ∨ other = ip)

theorem hopAddrs_accepts (net : Network) (accepts : Nat → IpAddr → Bool) (hop : Nat)
    (host : Option Host) : hopAddrs { net with accepts } hop host = hopAddrs net hop host := by
  cases host with
  | none => rfl
  | some host => cases host <;> rfl

theorem answers_accepts (net : Network) (accepts : Nat → IpAddr → Bool) (left hop : Nat)
    (url : Url) : answers { net with accepts } left hop url = answers net left hop url := by
  induction left generalizing hop url with
  | zero =>
    rw [answers.eq_def, answers.eq_def net, hopAddrs_accepts]
    rcases net.reply hop url with location | resp | message <;> rfl
  | succ left ih =>
    rw [answers.eq_def, answers.eq_def net, hopAddrs_accepts]
    rcases net.reply hop url with location | resp | message
    · simp only [ih]
    · rfl
    · rfl

/-- Every answer a request can get to may be connected to. -/
theorem exists_contact {net : Network} {left hop : Nat} {url : Url} {addrs : List IpAddr}
    {ip : IpAddr} (haddrs : addrs ∈ answers net left hop url) (hip : ip ∈ addrs) :
    ∃ last, hop ≤ last ∧
      ip ∈ (sendHops { net with accepts := acceptsAt last ip } left hop url).1 := by
  induction left generalizing hop url with
  | zero =>
    rcases hop_cases net 0 hop url with ⟨-, hnone⟩ | ⟨hscheme, first, ips, hlookup⟩
    · rw [hnone] at haddrs
      cases haddrs
    · rw [answers_of_answer hscheme hlookup] at haddrs
      have hfirst : addrs = first :: ips := by simpa using haddrs
      refine ⟨hop, Nat.le_refl hop, ?_⟩
      rw [contacts_of_answer hscheme ((hopAddrs_accepts net _ hop url.host).trans hlookup)]
      refine List.mem_append_left _ (mem_connect_of_only ?_ (hfirst ▸ hip))
      simp [acceptsAt]
  | succ left ih =>
    rcases hop_cases net (left + 1) hop url with ⟨-, hnone⟩ | ⟨hscheme, first, ips, hlookup⟩
    · rw [hnone] at haddrs
      cases haddrs
    · rw [answers_of_answer hscheme hlookup] at haddrs
      rcases List.mem_cons.mp haddrs with hfirst | hrest
      · refine ⟨hop, Nat.le_refl hop, ?_⟩
        rw [contacts_of_answer hscheme ((hopAddrs_accepts net _ hop url.host).trans hlookup)]
        refine List.mem_append_left _ (mem_connect_of_only ?_ (hfirst ▸ hip))
        simp [acceptsAt]
      · rcases hreply : net.reply hop url with location | resp | message
        · simp only [hreply] at hrest
          obtain ⟨last, hlast, hcontact⟩ := ih hrest
          refine ⟨last, by omega, ?_⟩
          rw [contacts_of_answer hscheme ((hopAddrs_accepts net _ hop url.host).trans hlookup)]
          have haccepts : acceptsAt last ip hop first = true := by
            have hne : hop ≠ last := by omega
            simp [acceptsAt, hne]
          refine List.mem_append_right _ ?_
          rw [connect_of_accepts haccepts]
          simp only [hreply]
          exact hcontact
        · simp [hreply] at hrest
        · simp [hreply] at hrest

/-! ### The fetch -/

/-- The connections of a fetch are those of the request it sends, if it sends one. -/
theorem contacts_sendRequest {cfg : FetchConfig} {net : Network} {url : String}
    {headers : List (String × String)} :
    (sendRequest cfg net url headers).1 =
      match requestSent cfg net url headers with
      | none => []
      | some parsed => (sendHops net maxRedirects 0 parsed).1 := by
  unfold sendRequest requestSent
  rcases hparse : net.parse url with e | parsed
  · rfl
  · simp only
    by_cases hscheme : parsed.scheme = "http" ∨ parsed.scheme = "https"
    · have hok : ¬ (parsed.scheme ≠ "http" ∧ parsed.scheme ≠ "https") := by tauto
      rw [if_neg hok]
      cases hallow : cfg.allowPrivateNetwork with
      | true =>
        by_cases hheaders : headers.all (fun header => net.validHeader header.1 header.2) = true
        · simp [hscheme, hheaders]
        · simp [hheaders]
      | false =>
        rcases hcheck : assertPublicHost net parsed with e | ok
        · simp
        · by_cases hheaders : headers.all (fun header => net.validHeader header.1 header.2) = true
          · simp [hscheme, hheaders]
          · simp [hheaders]
    · have hbad : parsed.scheme ≠ "http" ∧ parsed.scheme ≠ "https" := by tauto
      rw [if_pos hbad]
      simp [hscheme]

/-- **What keeps a fetch off private networks.**  No connection of a fetch goes to a
    disallowed address, whoever accepts connections, exactly when the request is
    refused before it is sent, or every lookup it can get to answers with public
    addresses only: its own second lookup of the host, and one for each redirect. -/
theorem contactsOnlyPublic_iff (cfg : FetchConfig) (net : Network) (url : String)
    (headers : List (String × String)) :
    ContactsOnlyPublic cfg net url headers ↔
      ∀ parsed, requestSent cfg net url headers = some parsed →
        ∀ addrs ∈ answers net maxRedirects 0 parsed, ∀ ip ∈ addrs, isDisallowed ip = false := by
  have hsent : ∀ accepts, requestSent cfg { net with accepts } url headers =
      requestSent cfg net url headers := fun accepts => rfl
  constructor
  · intro h parsed hparsed addrs haddrs ip hip
    obtain ⟨last, -, hcontact⟩ := exists_contact haddrs hip
    refine h (acceptsAt last ip) ip ?_
    rw [contacts_sendRequest, hsent, hparsed]
    exact hcontact
  · intro h accepts ip hip
    rw [contacts_sendRequest, hsent] at hip
    rcases hparsed : requestSent cfg net url headers with _ | parsed
    · simp [hparsed] at hip
    · simp only [hparsed] at hip
      obtain ⟨addrs, haddrs, hmem⟩ := mem_answers_of_mem_sendHops hip
      refine h parsed hparsed addrs ?_ ip hmem
      rwa [← answers_accepts net accepts]

/-! ### What the check is good for -/

/-- A public server that redirects to the metadata service of the host's network. -/
def redirectingNet : Network where
  parse _ := .ok ⟨"http", some (.domain "files.example"), "files.example"⟩
  validHeader _ _ := true
  resolve _ _ := .ok [.v4 ⟨93, 184, 216, 34⟩]
  accepts _ _ := true
  reply hop _ :=
    if hop = 0 then .redirect ⟨"http", some (.ip (.v4 ⟨169, 254, 169, 254⟩)), "169.254.169.254"⟩
    else .response ⟨200, none, []⟩

/-- The redirect is followed without another check. -/
theorem redirect_reaches_link_local :
    ¬ ContactsOnlyPublic ⟨30, 1048576, false⟩ redirectingNet "http://files.example/" [] := by
  intro h
  have hpublic := h redirectingNet.accepts (.v4 ⟨169, 254, 169, 254⟩) (by decide)
  exact absurd hpublic (by decide)

end Scriptorium
