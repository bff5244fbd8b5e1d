import Llmbridge.Net.Http
import Llmbridge.Http1.Rendering
import Llmbridge.Rfc3986.Paths

/-!
# AWS Signature Version 4

`net/include/net/sigv4.hpp` and `net/src/sigv4.cpp`.  The digests are OpenSSL's, and are
parameters here; the HMAC of RFC 2104 stands over any hash function of bytes.
-/

namespace Llmbridge

/-! ## Keyed hashing -/

namespace Rfc2104

open Rfc8259 (Byte Bytes)

variable (hash : Bytes → Bytes) (blockBytes : Nat)

/-- A key of one block: hashed where it is longer, and filled up with zeros. -/
def blockKey (key : Bytes) : Bytes :=
  let short := if blockBytes < key.length then hash key else key
  short ++ List.replicate (blockBytes - short.length) 0

/-- HMAC: the text hashed behind the inner key, and that behind the outer one. -/
def hmac (key text : Bytes) : Bytes :=
  hash ((blockKey hash blockBytes key).map (fun c => c ^^^ 0x5c) ++
    hash ((blockKey hash blockBytes key).map (fun c => c ^^^ 0x36) ++ text))

theorem hmac_length {n : Nat} (fixed : ∀ text, (hash text).length = n) (key text : Bytes) :
    (hmac hash blockBytes key text).length = n :=
  fixed _

end Rfc2104

namespace SigV4

open Rfc8259 (Byte Bytes ascii isDigit)
open Rfc3986 (isUnreserved upperHex percentDecode)
open Http (isOws trimOws)
open Http1 (lowerHex)

/-! ## Encoding -/

/-- `uri_encode`. -/
def uriEncode (s : Bytes) (encodeSlash : Bool) : Bytes :=
  s.flatMap fun c =>
    if isUnreserved c || (c == 0x2f && !encodeSlash) then [c]
    else [0x25, upperHex (c.toNat / 16), upperHex (c.toNat % 16)]

/-- `to_hex`. -/
def toHex (p : Bytes) : Bytes :=
  p.flatMap fun c => [lowerHex (c.toNat / 16), lowerHex (c.toNat % 16)]

/-- `date_only`: the day of a well-formed date. -/
def dateOnly (amzDate : Bytes) : Option Bytes :=
  if amzDate.length ≠ 16 ∨ amzDate[8]? ≠ some 0x54 ∨ amzDate[15]? ≠ some 0x5a then none
  else if ((amzDate.eraseIdx 15).eraseIdx 8).all isDigit then some (amzDate.take 8)
  else none

/-- The loop of `append_trimmed_collapsed`: `space` where a blank was just written. -/
def collapsed : (space : Bool) → Bytes → Bytes
  | _, [] => []
  | space, c :: rest =>
      if isOws c && space then collapsed space rest
      else (if isOws c then 0x20 else c) :: collapsed (isOws c) rest

/-- `append_trimmed_collapsed`. -/
def trimmedCollapsed (v : Bytes) : Bytes :=
  collapsed false (trimOws v)

/-- `percent_decoded`. -/
def percentDecoded (s : Bytes) : Bytes :=
  percentDecode s

/-! ## The canonical request -/

/-- `canonical_uri`. -/
def canonicalUri (wirePath : Bytes) : Bytes :=
  if wirePath.isEmpty then ascii "/" else uriEncode wirePath false

/-- A parameter's name and value, split at its first equals sign. -/
def splitPair (pair : Bytes) : Bytes × Bytes :=
  (pair.takeWhile (· != 0x3d), (pair.dropWhile (· != 0x3d)).drop 1)

/-- The parameters of a query, as they are written. -/
def pairs (query : Bytes) : List (Bytes × Bytes) :=
  ((query.splitOn 0x26).filter fun pair => !pair.isEmpty).map splitPair

/-- A parameter, encoded once. -/
def encodedPair (pair : Bytes × Bytes) : Bytes × Bytes :=
  (uriEncode (percentDecoded pair.1) true, uriEncode (percentDecoded pair.2) true)

/-- The order of pairs of strings. -/
def pairLe (a b : Bytes × Bytes) : Bool :=
  a.1 < b.1 || (a.1 == b.1 && a.2 ≤ b.2)

/-- One parameter of a canonical query. -/
def pairText (pair : Bytes × Bytes) : Bytes :=
  pair.1 ++ 0x3d :: pair.2

/-- `canonical_query`. -/
def canonicalQuery (query : Bytes) : Bytes :=
  List.intercalate [0x26]
    ((((pairs query).map encodedPair).insertionSort fun a b => pairLe a b = true).map
      pairText)

/-- `Request`. -/
structure Request where
  method : Bytes := []
  path : Bytes := []
  query : Bytes := []
  host : Bytes := []
  contentType : Bytes := []
  body : Bytes := []
  region : Bytes := []
  service : Bytes := []
  amzDate : Bytes := []
  deriving DecidableEq, Repr

/-- `SignedHeaders`. -/
def signedHeaders (r : Request) (sessionToken : Bytes) : Bytes :=
  (if r.contentType.isEmpty then [] else ascii "content-type;") ++ ascii "host;x-amz-date" ++
    (if sessionToken.isEmpty then [] else ascii ";x-amz-security-token")

/-- `canonical_request`. -/
def canonicalRequest (r : Request) (payloadHash sessionToken : Bytes) : Bytes :=
  r.method ++ [0x0a] ++ canonicalUri r.path ++ [0x0a] ++ canonicalQuery r.query ++ [0x0a] ++
    (if r.contentType.isEmpty then []
      else ascii "content-type:" ++ trimmedCollapsed r.contentType ++ [0x0a]) ++
    ascii "host:" ++ trimmedCollapsed r.host ++ [0x0a] ++
    ascii "x-amz-date:" ++ r.amzDate ++ [0x0a] ++
    (if sessionToken.isEmpty then []
      else ascii "x-amz-security-token:" ++ sessionToken ++ [0x0a]) ++ [0x0a] ++
    signedHeaders r sessionToken ++ [0x0a] ++ payloadHash

/-! ## Credentials and signatures -/

/-- `Credentials`. -/
structure Credentials where
  accessKeyId : Bytes := []
  secretAccessKey : Bytes := []
  sessionToken : Bytes := []
  deriving DecidableEq, Repr

/-- Where a byte is first found, and what stands on its two sides. -/
def cutAt (c : Byte) (s : Bytes) : Option (Bytes × Bytes) :=
  if c ∈ s then some (s.takeWhile (· != c), (s.dropWhile (· != c)).drop 1) else none

/-- `parse_credentials`. -/
def parseCredentials (bearer : Bytes) : Option Credentials :=
  match cutAt 0x3a bearer with
  | none => none
  | some (id, rest) =>
      if id.isEmpty then none
      else
        match cutAt 0x3a rest with
        | none => if rest.isEmpty then none else some ⟨id, rest, []⟩
        | some (secret, token) =>
            if secret.isEmpty || 0x3a ∈ token || token.isEmpty then none
            else some ⟨id, secret, token⟩

section Signing

variable (sha256 : Bytes → Bytes) (hmac : Bytes → Bytes → Bytes)

/-- The scope of a signature. -/
def scopeText (day region service : Bytes) : Bytes :=
  day ++ [0x2f] ++ region ++ [0x2f] ++ service ++ [0x2f] ++ ascii "aws4_request"

/-- The string to sign. -/
def stringToSign (r : Request) (day sessionToken : Bytes) : Bytes :=
  ascii "AWS4-HMAC-SHA256" ++ [0x0a] ++ r.amzDate ++ [0x0a] ++
    scopeText day r.region r.service ++ [0x0a] ++
    toHex (sha256 (canonicalRequest r (toHex (sha256 r.body)) sessionToken))

/-- The key of a signature, link by link. -/
def signingKey (secret day region service : Bytes) : Bytes :=
  hmac (hmac (hmac (hmac (ascii "AWS4" ++ secret) day) region) service) (ascii "aws4_request")

/-- The value of `Authorization`. -/
def authorization (c : Credentials) (r : Request) (day : Bytes) : Bytes :=
  ascii "AWS4-HMAC-SHA256" ++ ascii " Credential=" ++ c.accessKeyId ++ [0x2f] ++
    scopeText day r.region r.service ++ ascii ", SignedHeaders=" ++
    signedHeaders r c.sessionToken ++ ascii ", Signature=" ++
    toHex (hmac (signingKey hmac c.secretAccessKey day r.region r.service)
      (stringToSign sha256 r day c.sessionToken))

/-- `sign`: no headers where it cannot sign. -/
def sign (c : Credentials) (r : Request) : List (Bytes × Bytes) :=
  match dateOnly r.amzDate with
  | none => []
  | some day =>
      if c.accessKeyId.isEmpty || c.secretAccessKey.isEmpty || r.region.isEmpty ||
          r.service.isEmpty then []
      else
        [(ascii "x-amz-date", r.amzDate)] ++
          (if c.sessionToken.isEmpty then []
            else [(ascii "x-amz-security-token", c.sessionToken)]) ++
          [(ascii "Authorization", authorization sha256 hmac c r day)]

end Signing

end SigV4
end Llmbridge
