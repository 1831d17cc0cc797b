import IntoMarkdown.Http.Client
import IntoMarkdown.Lib.Except

/-! # Authorised connections

Every connection of a run was authorised for its own hop, whatever the servers
and the resolver answer. -/

namespace IntoMarkdown.Http
open IntoMarkdown.Lib (ok_bind)

variable (c : UrlCrate) (env : Environment) (policy : NetworkPolicy)

/-! ## What a run has to keep -/

/-- The address is the URL's literal, or the resolver gave it for this hop. -/
def Obtained (env : Environment) (n : Nat) (url : Url) (host : Text) (a : SocketAddr) : Prop :=
  ∃ port, url.portOrKnownDefault = some port ∧
    match parseIpAddr host with
    | some ip => a = ⟨ip, port, 0, 0⟩
    | none => ∃ answer, env.resolve n host port = some answer ∧ a ∈ answer.addresses

structure Permitted (n : Nat) (url : Url) (host : Text) (a : SocketAddr) : Prop where
  network : policy.allowNetwork = true
  canonical : canonicalHost url = .ok host
  obtained : Obtained env n url host a
  reachable : isPublicIp a.ip = true ∨ policy.allowPrivateNetwork = true
  plain : url.scheme = "http".toList → policy.allowPrivateNetwork = true ∧
    ∀ b, Obtained env n url host b → isPublicIp b.ip = false
  listed : policy.allowedHosts ≠ [] →
    ∃ entry ∈ policy.allowedHosts, normalizeEntry c entry = .ok host

def requested (events : List Event) : List Url :=
  events.filterMap fun event => match event with
    | .request url => some url
    | _ => none

def Fetched.urls (f : Fetched) : List Text :=
  f.finalUrl :: f.redirects.flatMap fun hop => [hop.origin, hop.target]

/-- The text is that of a URL without user information, query and fragment. -/
def Redacted (text : Text) : Prop :=
  ∃ url : Url, text = c.asStr url ∧ url.username = [] ∧ url.password = none ∧ url.query = none ∧
    url.fragment = none

structure Safe (r : Except TransportErrorKind Fetched × List Event) : Prop where
  connections : ∀ n url host a, .connect n url host a ∈ r.2 →
    (requested r.2)[n]? = some url ∧ Permitted c env policy n url host a
  distinct : ((requested r.2).map c.asStr).Nodup
  bounded : (requested r.2).length ≤ policy.maxRedirects.toNat + 1
  redacted : ∀ f, r.1 = .ok f → ∀ text ∈ f.urls, Redacted c text

/-- No URL is denied that an entry of the allowlist denotes. -/
def Accepting (r : Except TransportErrorKind Fetched × List Event) : Prop :=
  ∀ url, .denied url ∈ r.2 → ∀ entry ∈ policy.allowedHosts, ¬ Denotes c entry url

/-! ## One hop -/

variable {c env policy}

theorem mem_dedup {a : SocketAddr} {l : List SocketAddr} : a ∈ dedup l ↔ a ∈ l := by
  induction l with
  | nil => rfl
  | cons b rest ih =>
    cases rest with
    | nil => rfl
    | cons d rest =>
      by_cases hbd : b = d
      · subst hbd
        simp only [dedup, if_true, ih, List.mem_cons, or_self_left]
      · simp only [dedup, if_neg hbd, List.mem_cons] at ih ⊢
        rw [ih]

theorem resolveChecked_ok {n : Nat} {host : Text} {port : UInt16} {addresses : List SocketAddr}
    (h : resolveChecked env n host port = .ok addresses) :
    ∃ answer, env.resolve n host port = some answer ∧
      ∀ a, a ∈ addresses ↔ a ∈ answer.addresses := by
  obtain ⟨_, _, h⟩ := ok_bind h
  cases hanswer : env.resolve n host port with
  | none =>
    rw [hanswer] at h
    cases h
  | some answer =>
    rw [hanswer] at h
    obtain ⟨_, _, h⟩ := ok_bind h
    cases h
    refine ⟨answer, rfl, fun a => ?_⟩
    rw [mem_dedup, List.mem_mergeSort]

theorem normalizeAllowlist_ok {values hosts : List Text}
    (h : normalizeAllowlist c values = .ok hosts) :
    (∀ host, host ∈ hosts ↔ ∃ entry ∈ values, normalizeEntry c entry = .ok host) ∧
      ∀ entry ∈ values, ∃ host, normalizeEntry c entry = .ok host := by
  obtain ⟨_, _, h⟩ := ok_bind h
  clear * - h
  induction values generalizing hosts with
  | nil =>
    cases h
    simp
  | cons entry values ih =>
    rw [List.mapM_cons] at h
    obtain ⟨first, hfirst, h⟩ := ok_bind h
    obtain ⟨rest, hrest, h⟩ := ok_bind h
    cases h
    obtain ⟨hmem, hall⟩ := ih hrest
    constructor
    · intro host
      rw [List.mem_cons, hmem]
      constructor
      · rintro (rfl | ⟨e, he, hhost⟩)
        · exact ⟨entry, List.mem_cons_self .., hfirst⟩
        · exact ⟨e, List.mem_cons_of_mem _ he, hhost⟩
      · rintro ⟨e, he, hhost⟩
        rcases List.mem_cons.mp he with rfl | he
        · rw [hfirst] at hhost
          exact Or.inl (Except.ok.inj hhost).symm
        · exact Or.inr ⟨e, he, hhost⟩
    · intro e he
      rcases List.mem_cons.mp he with rfl | he
      · exact ⟨first, hfirst⟩
      · exact hall e he

/-- The addresses of a hop are its own. -/
theorem authorizedAddresses_ok {n : Nat} {url : Url} {host : Text} {addresses : List SocketAddr}
    (h : authorizedAddresses c env policy n url = .ok (host, addresses)) {a : SocketAddr}
    (ha : a ∈ addresses) : Permitted c env policy n url host a := by
  obtain ⟨_, _, h⟩ := ok_bind h
  obtain ⟨_, hnetwork, h⟩ := ok_bind h
  obtain ⟨hosts, hhosts, h⟩ := ok_bind h
  obtain ⟨own, hown, h⟩ := ok_bind h
  obtain ⟨_, hlisted, h⟩ := ok_bind h
  obtain ⟨_, _, h⟩ := ok_bind h
  cases hport : url.portOrKnownDefault.filter (· ≠ 0) with
  | none =>
    rw [hport] at h
    cases h
  | some port =>
    rw [hport] at h
    obtain ⟨found, hfound, h⟩ := ok_bind h
    obtain ⟨_, hpublic, h⟩ := ok_bind h
    obtain ⟨_, hplain, h⟩ := ok_bind h
    cases h
    have hdefault : url.portOrKnownDefault = some port := (Option.filter_eq_some_iff.mp hport).1
    have hmem : ∀ b, Obtained env n url host b ↔ b ∈ addresses := by
      intro b
      simp only [Obtained, hdefault, Option.some.injEq, exists_eq_left']
      simp only [hostAddresses] at hfound
      cases hip : parseIpAddr host with
      | some ip =>
        rw [hip] at hfound
        cases hfound
        simp
      | none =>
        rw [hip] at hfound
        obtain ⟨answer, hanswer, hiff⟩ := resolveChecked_ok hfound
        simp [hanswer, hiff]
    have hpublic := reject_ok hpublic
    have hplain := reject_ok hplain
    refine ⟨by simpa using reject_ok hnetwork, hown, (hmem a).mpr ha, ?_, ?_, ?_⟩
    · rw [or_iff_not_imp_right]
      intro hprivate
      have hall : (addresses.all fun b => isPublicIp b.ip) = true := by
        simpa [hprivate] using hpublic
      exact List.all_eq_true.mp hall a ha
    · intro hscheme
      simp only [hscheme, true_and, not_or, Bool.not_eq_true', Bool.not_eq_false] at hplain
      refine ⟨hplain.1, fun b hb => ?_⟩
      have hall := List.all_eq_true.mp hplain.2 b ((hmem b).mp hb)
      simpa using hall
    · intro hne
      have hin := reject_ok hlisted
      obtain ⟨hiff, hall⟩ := normalizeAllowlist_ok hhosts
      apply (hiff host).mp
      by_contra hnot
      apply hin
      refine ⟨fun hempty => ?_, hnot⟩
      obtain ⟨entry, hentry⟩ := List.exists_mem_of_ne_nil _ hne
      obtain ⟨first, hfirst⟩ := hall entry hentry
      have := (hiff first).mpr ⟨entry, hentry, hfirst⟩
      rw [hempty] at this
      cases this

/-- Every attempt of a hop is a connection to one of its addresses. -/
theorem mem_attempts {n : Nat} {url : Url} {host : Text} {addresses : List SocketAddr}
    {last : TransportErrorKind} {k : Nat} {event : Event}
    (h : event ∈ (attempts env n url host last k addresses).2) :
    ∃ a ∈ addresses, event = .connect n url host a := by
  induction addresses generalizing last k with
  | nil => cases h
  | cons address rest ih =>
    simp only [attempts] at h
    split at h
    · cases h
    · split at h
      · exact ⟨address, List.mem_cons_self .., List.mem_singleton.mp h⟩
      · split at h
        · rcases List.mem_cons.mp h with rfl | h
          · exact ⟨address, List.mem_cons_self .., rfl⟩
          · obtain ⟨a, ha, he⟩ := ih h
            exact ⟨a, List.mem_cons_of_mem _ ha, he⟩
        · exact ⟨address, List.mem_cons_self .., List.mem_singleton.mp h⟩

/-- What a hop does: it denies its URL, or connects where it may. -/
theorem mem_requestOnce {n : Nat} {url : Url} {event : Event}
    (h : event ∈ (requestOnce c env policy n url).2) :
    (event = .denied url ∧ authorizedAddresses c env policy n url = .error .hostDenied) ∨
      ∃ host a, event = .connect n url host a ∧ Permitted c env policy n url host a := by
  simp only [requestOnce] at h
  split at h
  · cases h
  · cases hauth : authorizedAddresses c env policy n url with
    | error kind =>
      simp only [hauth] at h
      split at h
      · rename_i hkind
        exact Or.inl ⟨List.mem_singleton.mp h, by rw [hkind]⟩
      · cases h
    | ok r =>
      simp only [hauth] at h
      obtain ⟨a, ha, rfl⟩ := mem_attempts h
      exact Or.inr ⟨_, a, rfl, authorizedAddresses_ok hauth ha⟩

/-! ## Runs -/

theorem redacted_redactedUrl (url : Url) : Redacted c (redactedUrl c url) :=
  ⟨url.redacted, rfl, rfl, rfl, rfl, rfl⟩

theorem requested_cons (url : Url) (events : List Event) :
    requested (.request url :: events) = url :: requested events := rfl

theorem requested_append (events more : List Event) :
    requested (events ++ more) = requested events ++ requested more :=
  List.filterMap_append

theorem requested_requestOnce (n : Nat) (url : Url) :
    requested (requestOnce c env policy n url).2 = [] := by
  rw [requested, List.filterMap_eq_nil_iff]
  intro event h
  rcases mem_requestOnce h with ⟨rfl, _⟩ | ⟨host, a, rfl, _⟩ <;> rfl

/-- What the turns from the hop `n` on give, with these URLs visited before. -/
structure Traced (c : UrlCrate) (env : Environment) (policy : NetworkPolicy) (turns n : Nat)
    (visited : List Text) (redirects : List RedirectHop)
    (r : Except TransportErrorKind Fetched × List Event) : Prop where
  connections : ∀ m url host a, .connect m url host a ∈ r.2 →
    n ≤ m ∧ (requested r.2)[m - n]? = some url ∧ Permitted c env policy m url host a
  denials : ∀ url, .denied url ∈ r.2 → url ∈ requested r.2 ∧
    ∃ m, authorizedAddresses c env policy m url = .error .hostDenied
  distinct : ((requested r.2).map c.asStr).Nodup
  fresh : ∀ url ∈ requested r.2, c.asStr url ∉ visited
  bounded : (requested r.2).length ≤ turns
  redacted : (∀ hop ∈ redirects, Redacted c hop.origin ∧ Redacted c hop.target) →
    ∀ f, r.1 = .ok f → ∀ text ∈ f.urls, Redacted c text

theorem traced_nil {turns n : Nat} {visited : List Text} {redirects : List RedirectHop}
    {kind : TransportErrorKind} : Traced c env policy turns n visited redirects (.error kind, []) where
  connections := fun _ _ _ _ h => by cases h
  denials := fun _ h => by cases h
  distinct := List.nodup_nil
  fresh := fun _ h => by cases h
  bounded := Nat.zero_le _
  redacted := fun _ _ h => by cases h

/-- A last hop. -/
theorem traced_once {turns n : Nat} {current : Url} {visited : List Text}
    {redirects : List RedirectHop} (hnew : c.asStr current ∉ visited)
    {result : Except TransportErrorKind Fetched}
    (hresult : ∀ f, result = .ok f →
      f.finalUrl = redactedUrl c current ∧ f.redirects = redirects) :
    Traced c env policy (turns + 1) n visited redirects
      (result, .request current :: (requestOnce c env policy n current).2) where
  connections := by
    intro m url host a h
    rcases List.mem_cons.mp h with h | h
    · cases h
    · rcases mem_requestOnce h with ⟨hevent, _⟩ | ⟨host', a', hevent, hpermitted⟩
      · cases hevent
      · cases hevent
        exact ⟨le_rfl, by simp [requested_cons], hpermitted⟩
  denials := by
    intro url h
    rcases List.mem_cons.mp h with h | h
    · cases h
    · rcases mem_requestOnce h with ⟨hevent, hdenied⟩ | ⟨host', a', hevent, _⟩
      · cases hevent
        exact ⟨by simp [requested_cons], n, hdenied⟩
      · cases hevent
  distinct := by simp [requested_cons, requested_requestOnce]
  fresh := by
    intro url h
    rw [requested_cons, requested_requestOnce, List.mem_singleton] at h
    exact h ▸ hnew
  bounded := by simp [requested_cons, requested_requestOnce]
  redacted := by
    intro hhops f hf text htext
    obtain ⟨hfinal, hredirects⟩ := hresult f hf
    rw [Fetched.urls, hfinal, hredirects] at htext
    rcases List.mem_cons.mp htext with rfl | htext
    · exact redacted_redactedUrl current
    · obtain ⟨hop, hhop, htext⟩ := List.mem_flatMap.mp htext
      have hboth := hhops hop hhop
      simp only [List.mem_cons, List.not_mem_nil, or_false] at htext
      rcases htext with rfl | rfl
      · exact hboth.1
      · exact hboth.2

/-- A hop and the turns after it. -/
theorem Traced.cons {turns n : Nat} {current next : Url} {visited : List Text}
    {redirects : List RedirectHop} {status : Nat}
    {r : Except TransportErrorKind Fetched × List Event} (hnew : c.asStr current ∉ visited)
    (h : Traced c env policy turns (n + 1) (c.asStr current :: visited)
      (redirects ++ [⟨redactedUrl c current, redactedUrl c next, status⟩]) r) :
    Traced c env policy (turns + 1) n visited redirects
      (r.1, .request current :: (requestOnce c env policy n current).2 ++ r.2) := by
  have hrequested : requested (.request current :: (requestOnce c env policy n current).2 ++ r.2) =
      current :: requested r.2 := by
    rw [List.cons_append, requested_cons, requested_append, requested_requestOnce,
      List.nil_append]
  have hhop : Traced c env policy (turns + 1) n visited redirects
      (.error .http, .request current :: (requestOnce c env policy n current).2) :=
    traced_once hnew (fun _ h => by cases h)
  have hfresh := fun url hurl => not_or.mp (List.mem_cons.not.mp (h.fresh url hurl))
  constructor
  · intro m url host a hevent
    rw [hrequested]
    rcases List.mem_append.mp hevent with hevent | hevent
    · obtain ⟨hle, hget, hpermitted⟩ := hhop.connections m url host a hevent
      refine ⟨hle, ?_, hpermitted⟩
      rw [requested_cons, requested_requestOnce] at hget
      cases hm : m - n with
      | zero =>
        rw [hm] at hget
        simpa using hget
      | succ k => simp [hm] at hget
    · obtain ⟨hle, hget, hpermitted⟩ := h.connections m url host a hevent
      refine ⟨by omega, ?_, hpermitted⟩
      rw [show m - n = (m - (n + 1)) + 1 by omega, List.getElem?_cons_succ]
      exact hget
  · intro url hevent
    rw [hrequested]
    rcases List.mem_append.mp hevent with hevent | hevent
    · obtain ⟨hmem, hdenied⟩ := hhop.denials url hevent
      rw [requested_cons, requested_requestOnce, List.mem_singleton] at hmem
      exact ⟨hmem ▸ List.mem_cons_self .., hdenied⟩
    · obtain ⟨hmem, hdenied⟩ := h.denials url hevent
      exact ⟨List.mem_cons_of_mem _ hmem, hdenied⟩
  · rw [hrequested, List.map_cons, List.nodup_cons]
    refine ⟨fun hmem => ?_, h.distinct⟩
    obtain ⟨url, hurl, hsame⟩ := List.mem_map.mp hmem
    exact (hfresh url hurl).1 hsame
  · intro url hurl
    rw [hrequested] at hurl
    rcases List.mem_cons.mp hurl with rfl | hurl
    · exact hnew
    · exact (hfresh url hurl).2
  · rw [hrequested, List.length_cons]
    exact Nat.succ_le_succ h.bounded
  · intro hhops f hf
    refine h.redacted (fun hop hmem => ?_) f hf
    rcases List.mem_append.mp hmem with hmem | hmem
    · exact hhops hop hmem
    · obtain rfl := List.mem_singleton.mp hmem
      exact ⟨redacted_redactedUrl current, redacted_redactedUrl next⟩

theorem traced_follow (mode : Mode) (turns n : Nat) (current : Url) (visited : List Text)
    (redirects : List RedirectHop) : Traced c env policy turns n visited redirects
      (follow c env policy mode turns n current visited redirects) := by
  induction turns generalizing n current visited redirects with
  | zero => exact traced_nil
  | succ turns ih =>
    simp only [follow]
    cases env.interrupted n .hop with
    | some kind => exact traced_nil
    | none =>
      dsimp only
      split
      · exact traced_nil
      · rename_i hnew
        have hfail : ∀ kind, Traced c env policy (turns + 1) n visited redirects
            (.error kind, .request current :: (requestOnce c env policy n current).2) :=
          fun kind => traced_once hnew (fun _ h => by cases h)
        split
        · rename_i kind events honce
          have hsame := hfail kind
          rw [honce] at hsame
          exact hsame
        · rename_i response events honce
          rw [honce] at hfail
          split
          · split
            · exact hfail _
            · rename_i next _
              have hnext := (ih (n + 1) next (c.asStr current :: visited)
                (redirects ++ [⟨redactedUrl c current, redactedUrl c next, response.status⟩])).cons
                hnew
              rw [honce] at hnext
              exact hnext
          · split
            · exact hfail _
            · split
              · exact hfail _
              · have hdone : Traced c env policy (turns + 1) n visited redirects
                    (.ok ⟨redactedUrl c current, response.mediaType, response.filename, redirects⟩,
                      .request current :: (requestOnce c env policy n current).2) :=
                  traced_once hnew (fun f hf => by cases hf; exact ⟨rfl, rfl⟩)
                rw [honce] at hdone
                exact hdone

/-! ## The allowlist -/

/-- The check does not fail with a denied host. -/
def Quiet {α : Type} (x : Except TransportErrorKind α) : Prop := x ≠ .error .hostDenied

theorem Quiet.bind {α β : Type} {x : Except TransportErrorKind α}
    {f : α → Except TransportErrorKind β} (hx : Quiet x) (hf : ∀ a, x = .ok a → Quiet (f a)) :
    Quiet (x >>= f) := by
  cases x with
  | error kind => exact fun h => hx (by cases h; rfl)
  | ok a => exact hf a rfl

theorem quiet_ok {α : Type} (a : α) : Quiet (.ok a : Except TransportErrorKind α) :=
  fun h => by cases h

theorem quiet_error {α : Type} {kind : TransportErrorKind} (h : kind ≠ .hostDenied) :
    Quiet (.error kind : Except TransportErrorKind α) :=
  fun hsame => h (Except.error.inj hsame)

theorem quiet_reject {bad : Prop} [Decidable bad] {kind : TransportErrorKind}
    (h : bad → kind ≠ .hostDenied) : Quiet (reject bad kind) := by
  rw [reject]
  split
  · rename_i hbad
    exact quiet_error (h hbad)
  · exact quiet_ok ()

theorem quiet_check (n : Nat) (site : Site) : Quiet (env.check n site) := by
  rw [Environment.check]
  cases env.interrupted n site with
  | none => exact quiet_ok ()
  | some interruption => cases interruption <;> exact quiet_error (by decide)

theorem quiet_normalizeEntry (entry : Text) : Quiet (normalizeEntry c entry) := by
  refine (quiet_reject fun _ => by decide).bind fun _ _ => ?_
  refine (quiet_reject fun _ => by decide).bind fun _ _ => ?_
  split
  · exact quiet_error (by decide)
  · exact quiet_ok _

theorem quiet_mapM {α β : Type} {f : α → Except TransportErrorKind β} (h : ∀ a, Quiet (f a))
    (items : List α) : Quiet (items.mapM f) := by
  induction items with
  | nil => exact quiet_ok _
  | cons a items ih =>
    rw [List.mapM_cons]
    exact (h a).bind fun _ _ => ih.bind fun _ _ => quiet_ok _

theorem quiet_normalizeAllowlist (values : List Text) : Quiet (normalizeAllowlist c values) :=
  (quiet_reject fun _ => by decide).bind fun _ _ => quiet_mapM quiet_normalizeEntry values

theorem quiet_hostAddresses (n : Nat) (host : Text) (port : UInt16) :
    Quiet (hostAddresses env n host port) := by
  rw [hostAddresses]
  split
  · exact quiet_ok _
  · refine (quiet_check n .resolve).bind fun _ _ => ?_
    split
    · exact quiet_error (by decide)
    · exact (quiet_reject fun _ => by decide).bind fun _ _ => quiet_ok _

/-- Only a host that the allowlist does not have is denied. -/
theorem quiet_authorizedAddresses {n : Nat} {url : Url}
    (h : ∀ hosts host, normalizeAllowlist c policy.allowedHosts = .ok hosts →
      canonicalHost url = .ok host → host ∈ hosts) :
    Quiet (authorizedAddresses c env policy n url) := by
  refine (quiet_check n .authorize).bind fun _ _ => ?_
  refine (quiet_reject fun _ => by decide).bind fun _ _ => ?_
  refine (quiet_normalizeAllowlist _).bind fun hosts hhosts => ?_
  have hcanonical : Quiet (canonicalHost url) := by
    rw [canonicalHost]
    split
    · exact quiet_error (by decide)
    · exact quiet_ok _
  refine hcanonical.bind fun host hhost => ?_
  refine (quiet_reject fun hbad => absurd (h hosts host hhosts hhost) hbad.2).bind fun _ _ => ?_
  refine (quiet_reject fun _ => by decide).bind fun _ _ => ?_
  split
  · exact quiet_error (by decide)
  · refine (quiet_hostAddresses n host _).bind fun _ _ => ?_
    refine (quiet_reject fun _ => by decide).bind fun _ _ => ?_
    exact (quiet_reject fun _ => by decide).bind fun _ _ => quiet_ok _

theorem lower_ipv4Text (value : BitVec 32) : lower (ipv4Text value) = ipv4Text value := by
  have digits : ∀ n, lower (Nat.toDigits 10 n) = Nat.toDigits 10 n := by
    intro n
    refine (List.map_congr_left fun d hd => ?_).trans (List.map_id _)
    have hdigit := Nat.isDigit_of_mem_toDigits (by decide) (by decide) hd
    rw [Char.isDigit, Bool.and_eq_true, decide_eq_true_eq, decide_eq_true_eq] at hdigit
    rw [Char.toLower, dif_neg]
    · rfl
    · rintro ⟨hA, -⟩
      exact absurd (UInt32.le_trans hA hdigit.2) (by decide)
  have dot : Char.toLower '.' = '.' := by decide
  simp only [ipv4Text, lower, List.map_append, List.map_cons, dot] at digits ⊢
  rw [digits, digits, digits, digits]

theorem trimEndDots_eq {name : Text} (h : name.getLast? ≠ some '.') : trimEndDots name = name := by
  rw [trimEndDots]
  cases hr : name.reverse with
  | nil => simp [List.reverse_eq_nil_iff.mp hr]
  | cons last rest =>
    have hlast : last ≠ '.' := by
      rintro rfl
      apply h
      rw [List.getLast?_eq_head?_reverse, hr, List.head?_cons]
    rw [List.dropWhile_cons_of_neg (by simpa using hlast), ← hr, List.reverse_reverse]

/-- An entry that can be compared gives the text of the host that it denotes. -/
theorem Comparable.normalizeEntry {entry host : Text} {url : Url} (h : Comparable c entry)
    (hdenotes : Denotes c entry url) (hhost : canonicalHost url = .ok host) {own : Text}
    (hentry : Http.normalizeEntry c entry = .ok own) : own = host := by
  obtain ⟨read, urlHost, hread, hurl, hsame⟩ := hdenotes
  have hown : lower (read.display c) = own := by
    obtain ⟨_, _, hentry⟩ := ok_bind hentry
    obtain ⟨_, _, hentry⟩ := ok_bind hentry
    rw [hread] at hentry
    exact Except.ok.inj hentry
  have hcanonical : urlHost.canonical = host := by
    rw [canonicalHost, hurl] at hhost
    split at hhost
    · cases hhost
    · rename_i found hfound
      cases hhost
      exact Option.some.inj (Option.filter_eq_some_iff.mp hfound).1
  rw [← hown, ← hcanonical, ← hsame]
  rw [Comparable, hread] at h
  cases read with
  | domain name => rw [Host.display, Host.canonical, trimEndDots_eq h]
  | ipv4 address => exact lower_ipv4Text address
  | ipv6 address => exact h.elim

/-- The run connects only where it may. -/
theorem run_safe (mode : Mode) (source : Text) :
    Safe c env policy (run c env policy mode source) := by
  have hnil : ∀ kind, Safe c env policy (.error kind, []) := fun kind =>
    { connections := fun _ _ _ _ h => by cases h
      distinct := List.nodup_nil
      bounded := Nat.zero_le _
      redacted := fun _ h => by cases h }
  simp only [run]
  split
  · exact hnil _
  · rename_i url _
    have h : Traced c env policy (policy.maxRedirects.toNat + 1) 0 [] []
        (follow c env policy mode (policy.maxRedirects.toNat + 1) 0 url [] []) :=
      traced_follow mode _ 0 url [] []
    exact
      { connections := fun n url host a hevent => (h.connections n url host a hevent).2
        distinct := h.distinct
        bounded := h.bounded
        redacted := h.redacted (List.forall_mem_nil _) }

/-- The crate `url` on two addresses and on the hosts in them. -/
def sampleCrate : UrlCrate :=
  let named : Url := ⟨"https".toList, [], none, some (.domain "example.org".toList), none, ['/'],
    none, none⟩
  let address : BitVec 128 := 0x26064700470000000000000000001111
  let numbered : Url := { named with host := some (.ipv6 address) }
  { parse := fun text =>
      if text = "https://example.org/".toList then some named
      else if text = "https://[2606:4700:4700::1111]/".toList then some numbered else none
    join := fun _ _ => none
    asStr := fun url =>
      if url = named then "https://example.org/".toList
      else "https://[2606:4700:4700::1111]/".toList
    parseHost := fun text =>
      if text = "example.org".toList then some (.domain text)
      else if text = "[2606:4700:4700::1111]".toList then some (.ipv6 address) else none
    ipv6Inner := ipv6Text }

/-- The resolver knows one address, and every server answers with a page. -/
def sampleEnvironment : Environment where
  start := none
  temporary := none
  deadline := none
  interrupted := fun _ _ => none
  resolve := fun _ _ port => some ⟨[⟨.v4 0x08080808, port, 0, 0⟩], 1⟩
  connect := fun _ _ => .ok ()
  exchange := fun _ _ => .ok ⟨200, none, none, none, 0⟩
  finalize := fun _ => none

def samplePolicy (entry : Text) : NetworkPolicy := ⟨true, false, [entry], 3⟩

end IntoMarkdown.Http
