import UpdateCheck.Types

/-!
# The transfer library

libcurl is not part of the source. `Curl` is what the fetcher calls of it, as a parameter: whether
a handle can be had, the answer to each option, and the transfer made under the options of a
handle. A handle is the state of its options, from the library's defaults on.

`Curl.Documented` is what the library documents about the places a transfer visits: the scheme of
the URL and of every redirection must be permitted by the handle, and a redirection is followed
only where the handle says so.
-/

namespace UpdateCheck.Fetcher

/-- The scheme of an URL. Of the schemes other than HTTP it matters only whether they run over
TLS. -/
inductive Scheme where
  | http
  | https
  | other (tls : Bool)
  deriving DecidableEq

def Scheme.overTls : Scheme → Bool
  | http => false
  | https => true
  | other tls => tls

/-- `CURLcode`, by the names the fetcher looks at. -/
inductive CurlCode where
  | ok
  | couldntResolveHost
  | couldntConnect
  | httpReturnedError
  | writeError
  | operationTimedout
  | sslConnectError
  | other (code : Nat)
  deriving DecidableEq

/-- The options the fetcher sets, and the two that restrict the schemes. -/
inductive CurlOption where
  | errorBuffer
  | writeFunction
  | writeData
  | followLocation (on : Int)
  | failOnError (on : Int)
  | connectTimeout (seconds : Int)
  | timeout (seconds : Int)
  | url (url : List CChar)
  | sslVerifyPeer (verify : Int)
  | sslVerifyHost (verify : Int)
  | userAgent (userAgent : List CChar)
  | protocols (permitted : List Scheme)
  | redirProtocols (permitted : List Scheme)
  deriving DecidableEq

structure CurlHandle where
  errorBuffer : Bool
  writeFunction : Bool
  writeData : Bool
  followLocation : Int
  failOnError : Int
  connectTimeout : Int
  timeout : Int
  url : List CChar
  sslVerifyPeer : Int
  sslVerifyHost : Int
  userAgent : Option (List CChar)
  protocols : Option (List Scheme)
  redirProtocols : Option (List Scheme)
  deriving DecidableEq

namespace CurlHandle

/-- A new handle: peer and host are verified, no redirection is followed, and the schemes are
those the library permits by itself. -/
def fresh : CurlHandle where
  errorBuffer := false
  writeFunction := false
  writeData := false
  followLocation := 0
  failOnError := 0
  connectTimeout := 300
  timeout := 0
  url := []
  sslVerifyPeer := 1
  sslVerifyHost := 2
  userAgent := none
  protocols := none
  redirProtocols := none

def set (h : CurlHandle) : CurlOption → CurlHandle
  | .errorBuffer => { h with errorBuffer := true }
  | .writeFunction => { h with writeFunction := true }
  | .writeData => { h with writeData := true }
  | .followLocation on => { h with followLocation := on }
  | .failOnError on => { h with failOnError := on }
  | .connectTimeout seconds => { h with connectTimeout := seconds }
  | .timeout seconds => { h with timeout := seconds }
  | .url url => { h with url := url }
  | .sslVerifyPeer verify => { h with sslVerifyPeer := verify }
  | .sslVerifyHost verify => { h with sslVerifyHost := verify }
  | .userAgent userAgent => { h with userAgent := some userAgent }
  | .protocols permitted => { h with protocols := some permitted }
  | .redirProtocols permitted => { h with redirProtocols := some permitted }

end CurlHandle

/-- A request that was made in the course of a transfer: its scheme, and whether the peer's
certificate and its name were verified. -/
structure Hop where
  scheme : Scheme
  peerVerified : Bool
  hostVerified : Bool
  deriving DecidableEq

/-- The request ran over TLS with the peer and the host verified. -/
def Hop.Secure (hop : Hop) : Prop :=
  hop.scheme.overTls = true ∧ hop.peerVerified = true ∧ hop.hostVerified = true

instance (hop : Hop) : Decidable hop.Secure := inferInstanceAs (Decidable (_ ∧ _))

/-- A transfer: the requests it made, the chunks handed to the write callback, the code where
the callback takes them all, and the text for the error buffer. -/
structure Transfer where
  hops : List Hop
  chunks : List (List CChar)
  code : CurlCode
  errorText : List CChar

/-- The library as the fetcher calls it, with the remote side behind it: `redirects` are the
schemes the requests for an URL are redirected to, one after another. -/
structure Curl where
  easyInit : Bool
  setopt : CurlHandle → CurlOption → CurlCode
  transfer : CurlHandle → Transfer
  schemeOf : List CChar → Scheme
  redirects : List CChar → List Scheme
  defaultProtocols : Scheme → Bool
  defaultRedirProtocols : Scheme → Bool

namespace Curl

variable (curl : Curl)

/-- Whether a handle permits the scheme of its URL. -/
def permits (h : CurlHandle) (s : Scheme) : Bool :=
  match h.protocols with
  | none => curl.defaultProtocols s
  | some permitted => s ∈ permitted

/-- Whether a handle permits a redirection to a scheme. -/
def permitsRedirect (h : CurlHandle) (s : Scheme) : Bool :=
  h.followLocation ≠ 0 &&
    match h.redirProtocols with
    | none => curl.defaultRedirProtocols s
    | some permitted => s ∈ permitted

/-- The request for a scheme under the options of a handle. -/
def hop (h : CurlHandle) (s : Scheme) : Hop :=
  ⟨s, s.overTls && h.sslVerifyPeer ≠ 0, s.overTls && h.sslVerifyHost ≠ 0⟩

/-- The schemes a handle permits on the way from its URL along the redirections. -/
def reach (h : CurlHandle) : List Scheme :=
  if curl.permits h (curl.schemeOf h.url) then
    curl.schemeOf h.url :: (curl.redirects h.url).takeWhile (curl.permitsRedirect h)
  else []

/-- A transfer makes the requests the handle permits, up to the first it does not permit. -/
structure Documented : Prop where
  hops : ∀ h, (curl.transfer h).hops = (curl.reach h).map (hop h)

/-- The calls that prepare a transfer succeed. -/
structure Works : Prop where
  easyInit : curl.easyInit = true
  setopt : ∀ h o, curl.setopt h o = .ok

end Curl

end UpdateCheck.Fetcher
