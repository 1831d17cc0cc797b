import IntoMarkdown.Http.Policy

/-! # The HTTP client

One request over its redirects. What the network and the rest of the process do
is an environment; what the client asks of them is a list of events. -/

namespace IntoMarkdown.Http

/-- What a checkpoint, a deadline or a reservation can report. -/
inductive Interruption where
  | cancelled | timeout | resourceLimit | unavailable
  deriving DecidableEq, Repr

def Interruption.kind : Interruption → TransportErrorKind
  | .cancelled => .cancelled
  | .timeout => .timeout
  | .resourceLimit => .resourceLimit
  | .unavailable => .unavailable

/-- Where a cancellation, a deadline or a reservation can end a hop. -/
inductive Site where
  | hop | reserve | authorize | resolve | attempt (k : Nat)
  deriving DecidableEq, Repr

/-- An answer of the resolver, with the capacity of its vector. -/
structure Answer where
  addresses : List SocketAddr
  capacity : Nat
  deriving DecidableEq, Repr

/-- What the client keeps of a response. -/
structure Response where
  status : Nat
  location : Option Text
  mediaType : Option Text
  filename : Option Text
  bytesWritten : Nat
  deriving DecidableEq, Repr

/-- The first three fields are of the checks before the first hop; the others are
told by hop, and those of a connection by attempt too. -/
structure Environment where
  start : Option Interruption
  temporary : Option Interruption
  deadline : Option Interruption
  interrupted : Nat → Site → Option Interruption
  resolve : Nat → Text → UInt16 → Option Answer
  connect : Nat → Nat → Except TransportErrorKind Unit
  exchange : Nat → Nat → Except TransportErrorKind Response
  finalize : Nat → Option TransportErrorKind

def stop : Option Interruption → Except TransportErrorKind Unit
  | some interruption => .error interruption.kind
  | none => .ok ()

def Environment.check (env : Environment) (n : Nat) (site : Site) :
    Except TransportErrorKind Unit :=
  stop (env.interrupted n site)

inductive Event where
  | request (url : Url)
  | denied (url : Url)
  | connect (n : Nat) (url : Url) (host : Text) (address : SocketAddr)
  deriving DecidableEq, Repr

/-! ## Authorisation -/

/-- `Ord for SocketAddr`: the addresses of version 4 first. -/
def SocketAddr.key (a : SocketAddr) : List Nat :=
  match a.ip with
  | .v4 bits => [4, bits.toNat, a.port.toNat]
  | .v6 bits => [6, bits.toNat, a.port.toNat, a.flowinfo.toNat, a.scopeId.toNat]

def dedup : List SocketAddr → List SocketAddr
  | a :: b :: rest => if a = b then dedup (b :: rest) else a :: dedup (b :: rest)
  | short => short

/-- `resolve_checked`. -/
def resolveChecked (env : Environment) (n : Nat) (host : Text) (port : UInt16) :
    Except TransportErrorKind (List SocketAddr) := do
  env.check n .resolve
  match env.resolve n host port with
  | none => .error .dns
  | some answer =>
    reject (answer.addresses = [] ∨ maxDnsAddresses < answer.addresses.length ∨
      maxDnsAddresses < answer.capacity ∨ answer.addresses.any (·.port ≠ port)) .dns
    return dedup (answer.addresses.mergeSort fun a b => a.key ≤ b.key)

/-- An address literal is not resolved. -/
def hostAddresses (env : Environment) (n : Nat) (host : Text) (port : UInt16) :
    Except TransportErrorKind (List SocketAddr) :=
  match parseIpAddr host with
  | some ip => .ok [⟨ip, port, 0, 0⟩]
  | none => resolveChecked env n host port

section
variable (c : UrlCrate) (env : Environment) (policy : NetworkPolicy)

/-- `authorized_addresses`. -/
def authorizedAddresses (n : Nat) (url : Url) :
    Except TransportErrorKind (Text × List SocketAddr) := do
  env.check n .authorize
  reject (!policy.allowNetwork) .networkDenied
  let allowedHosts ← normalizeAllowlist c policy.allowedHosts
  let host ← canonicalHost url
  reject (allowedHosts ≠ [] ∧ host ∉ allowedHosts) .hostDenied
  reject (isLocalhostName host ∧ !policy.allowPrivateNetwork) .privateNetworkDenied
  match url.portOrKnownDefault.filter (· ≠ 0) with
  | none => .error .invalidMessage
  | some port =>
    let addresses ← hostAddresses env n host port
    let allPublic := addresses.all fun a => isPublicIp a.ip
    let allPrivate := addresses.all fun a => !isPublicIp a.ip
    reject (!allPublic ∧ !policy.allowPrivateNetwork) .privateNetworkDenied
    reject (url.scheme = "http".toList ∧ (!policy.allowPrivateNetwork ∨ !allPrivate))
      .privateNetworkDenied
    return (host, addresses)

/-! ## One hop -/

/-- The loop over the addresses of a hop, from the attempt `k`. -/
def attempts (n : Nat) (url : Url) (host : Text) (last : TransportErrorKind) (k : Nat) :
    List SocketAddr → Except TransportErrorKind Response × List Event
  | [] => (.error last, [])
  | address :: rest =>
    match env.interrupted n (.attempt k) with
    | some interruption => (.error interruption.kind, [])
    | none =>
      match env.connect n k with
      | .ok () => (env.exchange n k, [.connect n url host address])
      | .error kind =>
        if (kind = .connect ∨ kind = .tls) ∧ rest ≠ [] then
          let r := attempts n url host kind (k + 1) rest
          (r.1, .connect n url host address :: r.2)
        else (.error kind, [.connect n url host address])

/-- `request_once`, `request_once_to_writer`. -/
def requestOnce (n : Nat) (url : Url) : Except TransportErrorKind Response × List Event :=
  match env.interrupted n .reserve with
  | some interruption => (.error interruption.kind, [])
  | none =>
    match authorizedAddresses c env policy n url with
    | .error kind => (.error kind, if kind = .hostDenied then [.denied url] else [])
    | .ok (host, addresses) => attempts env n url host .connect 0 addresses

/-! ## A request -/

structure RedirectHop where
  origin : Text
  target : Text
  status : Nat
  deriving DecidableEq, Repr

/-- A resource, without its bytes. -/
structure Fetched where
  finalUrl : Text
  mediaType : Option Text
  filename : Option Text
  redirects : List RedirectHop
  deriving DecidableEq, Repr

/-- Whether the body goes to a writer. -/
inductive Mode where
  | get | getToWriter
  deriving DecidableEq, Repr

def isRedirect (status : Nat) : Bool := status ∈ [301, 302, 303, 307, 308]

/-- The next URL after a redirect, by the checks of the loop in their order. -/
def nextUrl (mode : Mode) (current : Url) (visited : List Text) (redirects : List RedirectHop)
    (response : Response) : Except TransportErrorKind Url := do
  let full := policy.maxRedirects.toNat ≤ redirects.length
  let location : Except TransportErrorKind Text := match response.location with
    | none => .error .http
    | some location => .ok location
  let location ← match mode with
    | .get => do
      let location ← location
      reject full .http
      .ok location
    | .getToWriter => do
      reject (response.bytesWritten ≠ 0 ∨ full) .http
      location
  let next ← canonicalRedirect c current location
  reject (c.asStr next ∈ visited) .http
  return next

/-- The loop over the hops. It takes at most one turn more than the policy has
redirects, which `turns` counts. -/
def follow (mode : Mode) : Nat → Nat → Url → List Text → List RedirectHop →
    Except TransportErrorKind Fetched × List Event
  | 0, _, _, _, _ => (.error .http, [])
  | turns + 1, n, current, visited, redirects =>
    match env.interrupted n .hop with
    | some interruption => (.error interruption.kind, [])
    | none =>
      if c.asStr current ∈ visited then (.error .http, [])
      else
        let visited := c.asStr current :: visited
        match requestOnce c env policy n current with
        | (.error kind, events) => (.error kind, .request current :: events)
        | (.ok response, events) =>
          if isRedirect response.status then
            match nextUrl c policy mode current visited redirects response with
            | .error kind => (.error kind, .request current :: events)
            | .ok next =>
              let hop := ⟨redactedUrl c current, redactedUrl c next, response.status⟩
              let r := follow mode turns (n + 1) next visited (redirects ++ [hop])
              (r.1, .request current :: events ++ r.2)
          else if response.status ≠ 200 then (.error .http, .request current :: events)
          else
            match mode, env.finalize n with
            | .get, some kind => (.error kind, .request current :: events)
            | _, _ =>
              (.ok ⟨redactedUrl c current, response.mediaType, response.filename, redirects⟩,
                .request current :: events)

/-- `HttpClient::get`, `HttpClient::get_to_writer`. -/
def run (mode : Mode) (source : Text) : Except TransportErrorKind Fetched × List Event :=
  let checked : Except TransportErrorKind Url := do
    stop env.start
    reject (!policy.allowNetwork) .networkDenied
    stop (if mode = .getToWriter then env.temporary else none)
    let url ← canonicalUrl c source
    stop env.deadline
    return url
  match checked with
  | .error kind => (.error kind, [])
  | .ok url => follow c env policy mode (policy.maxRedirects.toNat + 1) 0 url [] []

end

end IntoMarkdown.Http
