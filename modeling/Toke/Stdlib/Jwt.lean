/-
  Toke.Stdlib.Jwt — **SIGNING AND VERIFYING A TOKEN** (`auth.c`).

  `auth_jwtsign` inserts the claims into a JSON text as they are;
  `auth_jwtverify` reads them back by looking for `"key":` anywhere in the
  text.  The MAC is a parameter: nothing here depends on what it computes.

    `payloadJson`, `authJwtsign`              — signing
    `jsonGetStr`, `jsonGetInt64`, `readClaims` — reading claims from a text
    `authJwtverify`                           — verifying
-/
import Toke.Stdlib.Encoding
import Toke.Stdlib.Number
import Toke.Library.Printing
import Toke.Library.Searching

namespace Toke.Stdlib

/-- `JwtClaims`. -/
structure JwtClaims where
  subject : Option (List UInt8)
  issuer : Option (List UInt8)
  issuedAt : Int64
  expiresAt : Int64
  audience : Option (List UInt8)
  deriving DecidableEq

/-- The pieces that `auth_jwtsign` prints one after the other. -/
def payloadPieces (c : JwtClaims) (iat : Int64) : List (List UInt8) :=
  [ascii "\x7b"] ++
  c.subject.toList.map (fun s => ascii "\"sub\":\"" ++ s ++ ascii "\"") ++
  (if c.issuer.isSome ∧ c.subject.isSome then [ascii ","] else []) ++
  c.issuer.toList.map (fun s => ascii "\"iss\":\"" ++ s ++ ascii "\"") ++
  (if c.subject.isSome ∨ c.issuer.isSome then [ascii ","] else []) ++
  [ascii "\"iat\":" ++ decimal iat] ++
  (if c.expiresAt ≠ 0 then [ascii ",\"exp\":" ++ decimal c.expiresAt] else []) ++
  c.audience.toList.map (fun s => ascii ",\"aud\":\"" ++ s ++ ascii "\"") ++
  [ascii "\x7d"]

/-- The size of the buffer for the payload. -/
def payloadSize (c : JwtClaims) : Nat :=
  64 + (c.subject.getD []).length + (c.issuer.getD []).length + (c.audience.getD []).length + 128

/-- The payload of a token. -/
def payloadJson (c : JwtClaims) (iat : Int64) : List UInt8 :=
  (Printing.printAll (payloadSize c) (payloadPieces c iat)).text

/-- The header of a token. -/
def headerJson : List UInt8 := ascii "\x7b\"alg\":\"HS256\",\"typ\":\"JWT\"\x7d"

section

-- `crypto_hmac_sha256` and `time`
variable (hmac : List UInt8 → List UInt8 → List UInt8) (now : Int64)

/-- `auth_jwtsign`. -/
def authJwtsign (claims : JwtClaims) (secret : List UInt8) : List UInt8 :=
  let iat := if claims.issuedAt ≠ 0 then claims.issuedAt else now
  let header := b64urlencode headerJson
  let payload := b64urlencode (payloadJson claims iat)
  header ++ 46 :: payload ++ 46 :: b64urlencode (hmac secret (header ++ 46 :: payload))

/-- `jwt_split`: three parts between two dots. -/
def jwtSplit (token : List UInt8) : Option (List UInt8 × List UInt8 × List UInt8) :=
  match token.splitOn 46 with
  | [a, b, c] => some (a, b, c)
  | _ => none

/-- `ct_memeq`. -/
def ctMemeq (a b : List UInt8) : Bool :=
  (a.zip b).foldl (fun acc p => acc ||| (p.1 ^^^ p.2)) 0 = 0

/-- `json_get_str`: the text behind `"key":"` up to the next quote. -/
def jsonGetStr (json key : List UInt8) (outSize : Nat) : Option (List UInt8) :=
  (Searching.afterFirst ((34 :: key ++ [34, 58, 34]).take 127) json).bind fun p =>
    if 34 ∈ p then some ((p.takeWhile (· ≠ 34)).take (outSize - 1)) else none

/-- `json_get_int64`: the number behind `"key":`. -/
def jsonGetInt64 (json key : List UInt8) : Option Int64 :=
  (Searching.afterFirst ((34 :: key ++ [34, 58]).take 127) json).bind fun p =>
    strtoll (p.dropWhile isBlank)

/-- The claims in a payload. -/
def readClaims (json : List UInt8) : JwtClaims where
  subject := jsonGetStr json (ascii "sub") 512
  issuer := jsonGetStr json (ascii "iss") 512
  issuedAt := (jsonGetInt64 json (ascii "iat")).getD 0
  expiresAt := (jsonGetInt64 json (ascii "exp")).getD 0
  audience := none

/-- The header names the one algorithm that is allowed. -/
def algAllowed (part : List UInt8) : Bool :=
  (b64urldecode part).bind (fun hdr => jsonGetStr (cstr hdr) (ascii "alg") 32) =
    some (ascii "HS256")

/-- The signature of the first two parts is the third. -/
def signatureOk (secret : List UInt8) (part : List UInt8 × List UInt8 × List UInt8) : Bool :=
  let expected := hmac secret (part.1 ++ 46 :: part.2.1)
  match b64urldecode part.2.2 with
  | some provided => provided.length = expected.length && ctMemeq provided expected
  | none => false

/-- `auth_jwtverify`. -/
def authJwtverify (token secret : List UInt8) : Except String JwtClaims :=
  match jwtSplit token with
  | none => .error "malformed token: wrong number of segments"
  | some part =>
    if !algAllowed part.1 then
      .error "unsupported or missing JWT algorithm (only HS256 allowed)"
    else if !signatureOk hmac secret part then .error "signature mismatch"
    else
      match b64urldecode part.2.1 with
      | none => .error "failed to decode payload"
      | some payload => .ok (readClaims (cstr payload))

/-- The comparison without an early exit is equality. -/
theorem ctMemeq_iff {a b : List UInt8} (h : a.length = b.length) : ctMemeq a b ↔ a = b := by
  have hfold : ∀ (a b : List UInt8) (acc : UInt8), a.length = b.length →
      ((a.zip b).foldl (fun acc p => acc ||| (p.1 ^^^ p.2)) acc = 0 ↔ acc = 0 ∧ a = b) := by
    intro a
    induction a with
    | nil =>
      intro b acc hlen
      simp [List.length_eq_zero_iff.mp hlen.symm]
    | cons x a ih =>
      intro b acc hlen
      cases b with
      | nil => cases hlen
      | cons y b =>
        rw [List.zip_cons_cons, List.foldl_cons, ih b _ (Nat.succ.inj hlen), UInt8.or_eq_zero_iff,
          UInt8.xor_eq_zero_iff, List.cons.injEq, and_assoc]
  rw [ctMemeq, decide_eq_true_eq, hfold a b 0 h]
  exact and_iff_right rfl

/-- The test of the signature is equality with the MAC. -/
theorem signatureOk_iff (secret : List UInt8) (part : List UInt8 × List UInt8 × List UInt8) :
    signatureOk hmac secret part ↔
      b64urldecode part.2.2 = some (hmac secret (part.1 ++ 46 :: part.2.1)) := by
  unfold signatureOk
  cases b64urldecode part.2.2 with
  | none => simp
  | some provided =>
    dsimp only
    rw [Bool.and_eq_true, decide_eq_true_eq, Option.some_inj]
    constructor
    · exact fun h => (ctMemeq_iff h.1).mp h.2
    · exact fun h => ⟨congrArg List.length h, (ctMemeq_iff (congrArg List.length h)).mpr h⟩

end

end Toke.Stdlib
