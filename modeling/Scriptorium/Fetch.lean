import Scriptorium.HostFs
import Scriptorium.Address
import Mathlib.Algebra.Order.Group.Nat

/-!
# Fetching a URL

`fetch.rs`: the check of the host, the request with its redirects, and the
writing of the body.  The rest of the world is a `Network`: what each lookup
answers, which addresses accept a connection, and what the server at the end of
it replies.  `sendRequest` also records every address a connection is opened to.
-/

namespace Scriptorium

open Posix Effects

/-! ### The network -/

inductive Host where
  | domain (name : String)
  | ip (addr : IpAddr)
deriving DecidableEq, Repr

/-- A parsed URL; `hostText` is its `host_str`. -/
structure Url where
  scheme : String
  host : Option Host
  hostText : String
deriving DecidableEq, Repr

/-- A response: its status, its `Content-Type` if it is a text, and the chunks
    of its body, each of which may fail to arrive. -/
structure HttpResponse where
  status : Nat
  contentType : Option String
  body : List (Except String (List UInt8))

inductive HopReply where
  | redirect (location : Url)
  | response (resp : HttpResponse)
  | failed (message : String)

/-- The outside world of one fetch.  Lookup 0 is the one of the host check; the
    request to the host of hop `n` makes lookup `n + 1`. -/
structure Network where
  parse : String → Except String Url
  validHeader : String → String → Bool
  resolve : Nat → String → Except String (List IpAddr)
  accepts : Nat → IpAddr → Bool
  reply : Nat → Url → HopReply

structure FetchConfig where
  timeoutSeconds : Nat
  maxBodyBytes : Nat
  allowPrivateNetwork : Bool

structure FetchOutcome where
  bytesWritten : Nat
  contentType : String
  httpStatus : Nat
deriving DecidableEq, Repr

/-! ### The host check -/

/-- The answer of a lookup in which every address must be public. -/
def assertPublicAddrs (host : String) : Except String (List IpAddr) → Except Error Unit
  | .error e => .error (.other ("dns resolve " ++ host ++ ": " ++ e))
  | .ok [] => .error (.other ("dns: no records for " ++ host))
  | .ok addrs =>
    match addrs.find? isDisallowed with
    | some ip => .error (.other ("refusing to fetch " ++ host ++
        ": resolved to disallowed address " ++ ip.display))
    | none => .ok ()

/-- `assert_public_host`.  Only an IPv4 host parses as an address literal here:
    the text of an IPv6 host keeps its brackets, and the lookup answers with the
    address itself. -/
def assertPublicHost (net : Network) (url : Url) : Except Error Unit :=
  match url.host with
  | none => .error (.other "url has no host")
  | some (.ip (.v4 ip)) =>
    if isDisallowed (.v4 ip) then
      .error (.other ("refusing to fetch disallowed literal address: " ++ url.hostText))
    else .ok ()
  | some (.ip (.v6 ip)) => assertPublicAddrs url.hostText (.ok [.v6 ip])
  | some (.domain name) => assertPublicAddrs url.hostText (net.resolve 0 name)

/-! ### The request -/

/-- The addresses the connector of a hop gets for a host. -/
def hopAddrs (net : Network) (hop : Nat) : Option Host → Except String (List IpAddr)
  | none => .error "url has no host"
  | some (.ip ip) => .ok [ip]
  | some (.domain name) => net.resolve (hop + 1) name

/-- Try addresses in order until one accepts: the addresses tried, and whether
    the last one did. -/
def connect (net : Network) (hop : Nat) : List IpAddr → List IpAddr × Bool
  | [] => ([], false)
  | ip :: ips =>
    if net.accepts hop ip then ([ip], true)
    else
      let (tried, connected) := connect net hop ips
      (ip :: tried, connected)

/-- A request that may still follow `left` redirects: the addresses it opens
    connections to, and what comes back. -/
def sendHops (net : Network) (left hop : Nat) (url : Url) :
    List IpAddr × Except String HttpResponse :=
  if url.scheme ≠ "http" ∧ url.scheme ≠ "https" then ([], .error "URL scheme is not allowed")
  else
    match hopAddrs net hop url.host with
    | .error e => ([], .error e)
    | .ok addrs =>
      match connect net hop addrs with
      | (tried, false) => (tried, .error "error trying to connect")
      | (tried, true) =>
        match net.reply hop url with
        | .failed message => (tried, .error message)
        | .response resp => (tried, .ok resp)
        | .redirect location =>
          match left with
          | 0 => (tried, .error "too many redirects")
          | left + 1 =>
            let (more, result) := sendHops net left (hop + 1) location
            (tried ++ more, result)

/-- `Policy::limited(5)`. -/
def maxRedirects : Nat := 5

/-- The part of `fetch_to_file` before the response arrives: the addresses
    connections are opened to, and the response. -/
def sendRequest (cfg : FetchConfig) (net : Network) (url : String)
    (headers : List (String × String)) : List IpAddr × Except Error HttpResponse :=
  match net.parse url with
  | .error e => ([], .error (.other ("bad url: " ++ e)))
  | .ok parsed =>
    if parsed.scheme ≠ "http" ∧ parsed.scheme ≠ "https" then
      ([], .error (.other ("unsupported url scheme: " ++ parsed.scheme ++
        " — only http/https allowed")))
    else
      match if cfg.allowPrivateNetwork then .ok () else assertPublicHost net parsed with
      | .error e => ([], .error e)
      | .ok () =>
        if headers.all fun header => net.validHeader header.1 header.2 then
          let (tried, result) := sendHops net maxRedirects 0 parsed
          (tried, result.mapError fun e => .other ("fetch: " ++ e))
        else ([], .error (.other "fetch: builder error"))

/-! ### The body -/

/-- Write the chunks of a body; the running total is a `u64`. -/
def writeBody (maxBodyBytes : Nat) (handle : Pos) :
    List (Except String (List UInt8)) → Nat → Fs Error Nat
  | [], total => pure total
  | .error e :: _, _ => Prog.throw (.other ("fetch body: " ++ e))
  | .ok chunk :: rest, total =>
    let total := (total + chunk.length) % 2 ^ 64
    if total > maxBodyBytes then
      Prog.throw (.other ("fetch body exceeded max_body_bytes (" ++ toString total ++ " > " ++
        toString maxBodyBytes ++ ")"))
    else do
      io (sys (.write handle chunk))
      writeBody maxBodyBytes handle rest total

theorem writeBody_ok (maxBodyBytes : Nat) (handle : Pos) (chunk : List UInt8)
    (rest : List (Except String (List UInt8))) (total : Nat) :
    writeBody maxBodyBytes handle (.ok chunk :: rest) total =
      if (total + chunk.length) % 2 ^ 64 > maxBodyBytes then
        Prog.throw (.other ("fetch body exceeded max_body_bytes (" ++
          toString ((total + chunk.length) % 2 ^ 64) ++ " > " ++ toString maxBodyBytes ++ ")"))
      else io (sys (.write handle chunk)) >>= fun _ =>
        writeBody maxBodyBytes handle rest ((total + chunk.length) % 2 ^ 64) :=
  rfl

/-- `fetch_to_file`, given how its request ended. -/
def fetchToFile (cfg : FetchConfig) (reply : Except Error HttpResponse) (target : PathBuf) :
    Fs Error FetchOutcome := do
  let resp ← (match reply with
    | .error e => Prog.throw e
    | .ok resp => pure resp)
  if ¬ (200 ≤ resp.status ∧ resp.status ≤ 299) then
    Prog.throw (.other ("fetch returned non-2xx status: " ++ toString resp.status))
  else
    match target.parent with
    | none => pure ()
    | some parent => io (createDirAll parent)
    ignore (sys (.unlink target))
    let handle ← io (sys (.create target))
    let bytesWritten ← writeBody cfg.maxBodyBytes handle resp.body 0
    pure ⟨bytesWritten, resp.contentType.getD "application/octet-stream", resp.status⟩

end Scriptorium
