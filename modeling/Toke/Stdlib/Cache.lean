/-
  Toke.Stdlib.Cache — **THE RESPONSE CACHE** (`cache.c`).

  An entry is stored under a key that is printed piece by piece into a buffer
  of 1024 bytes: method, URI, and each request header that the `Vary` value
  names.  The entries form a list with the most recently used one in front.

    `cacheBuildKey`                  — the key
    `httpCacheGet`, `httpCachePut`   — the operations
    `exec`, `run`                    — sequences of calls
-/
import Toke.Stdlib.Encoding
import Toke.Stdlib.Number
import Toke.Library.Printing

namespace Toke.Stdlib

/-! ## §1. `Cache-Control`. -/

/-- `CacheControl`; an age that is not set is `-1`. -/
structure CacheControl where
  noCache : Bool
  noStore : Bool
  publicDir : Bool
  privateDir : Bool
  mustRevalidate : Bool
  onlyIfCached : Bool
  maxAge : Int
  sMaxage : Int
  staleWhileRevalidate : Int
  staleIfError : Int
  deriving DecidableEq

/-- The directives in the order in which they are tried; those with a value
take the number behind them. -/
def directives : List (List UInt8 × (Int → CacheControl → CacheControl) × Bool) :=
  [(ascii "no-cache", fun _ cc => { cc with noCache := true }, false),
    (ascii "no-store", fun _ cc => { cc with noStore := true }, false),
    (ascii "public", fun _ cc => { cc with publicDir := true }, false),
    (ascii "private", fun _ cc => { cc with privateDir := true }, false),
    (ascii "must-revalidate", fun _ cc => { cc with mustRevalidate := true }, false),
    (ascii "only-if-cached", fun _ cc => { cc with onlyIfCached := true }, false),
    (ascii "s-maxage=", fun n cc => { cc with sMaxage := n }, true),
    (ascii "max-age=", fun n cc => { cc with maxAge := n }, true),
    (ascii "stale-while-revalidate=", fun n cc => { cc with staleWhileRevalidate := n }, true),
    (ascii "stale-if-error=", fun n cc => { cc with staleIfError := n }, true)]

/-- `atol`. -/
def atol (s : List UInt8) : Int := ((strtoll s).getD 0).toInt

/-- The loop of `cache_control_parse`. -/
def controlLoop : Nat → List UInt8 → CacheControl → CacheControl
  | 0, _, cc => cc
  | fuel + 1, p, cc =>
    let p := p.dropWhile fun c => c = 32 || c = 44 || c = 9
    if p = [] then cc
    else
      match directives.find? fun d => startsNoCase d.1 p with
      | some (name, set, hasValue) =>
        let rest := p.drop name.length
        controlLoop fuel (if hasValue then rest.dropWhile isDecimal else rest)
          (set (atol rest) cc)
      | none => controlLoop fuel (p.dropWhile (· ≠ 44)) cc

/-- `cache_control_parse`. -/
def cacheControlParse (header : Option (List UInt8)) : CacheControl :=
  let cc := ⟨false, false, false, false, false, false, -1, -1, -1, -1⟩
  match header with
  | none => cc
  | some h => controlLoop (h.length + 1) h cc

/-! ## §2. The key. -/

/-- What identifies a request: `none` is `NULL`. -/
structure Request where
  method : Option (List UInt8)
  uri : Option (List UInt8)
  vary : Option (List UInt8)
  headers : List (List UInt8 × List UInt8)
  deriving DecidableEq

/-- The names between the commas of a `Vary` value. -/
def varyLoop : Nat → List UInt8 → List (List UInt8)
  | 0, _ => []
  | fuel + 1, p =>
    let p := p.dropWhile fun c => c = 32 || c = 44
    if p = [] then []
    else trimEnd isBlank (p.takeWhile (· ≠ 44)) :: varyLoop fuel (p.dropWhile (· ≠ 44))

/-- The header names of the `Vary` value of a request; `*` names none. -/
def Request.varyNames (r : Request) : List (List UInt8) :=
  match r.vary with
  | none => []
  | some v => if v = ascii "*" then [] else varyLoop (v.length + 1) v

/-- The first header of that name. -/
def Request.header (r : Request) (name : List UInt8) : Option (List UInt8 × List UInt8) :=
  r.headers.find? fun h => sameNoCase h.1 name

/-- The method, `GET` by default. -/
def Request.methodText (r : Request) : List UInt8 := r.method.getD (ascii "GET")

/-- The path, `/` by default. -/
def Request.uriText (r : Request) : List UInt8 := r.uri.getD (ascii "/")

/-- What is printed for a header. -/
def headerPiece (h : List UInt8 × List UInt8) : List UInt8 := 124 :: (h.1 ++ 61 :: h.2)

/-- The pieces of the key. -/
def keyPieces (r : Request) : List (List UInt8) :=
  (r.methodText ++ 124 :: r.uriText) :: (r.varyNames.filterMap r.header).map headerPiece

/-- `cache_build_key`: the buffer, and whether a piece was written outside. -/
def cacheBuildKey (r : Request) : Printing.Printer UInt8 := Printing.printAll 1024 (keyPieces r)

/-! ## §3. The operations. -/

/-- `CacheEntry`. -/
structure CacheEntry where
  key : List UInt8
  status : Nat
  body : List UInt8
  etag : Option (List UInt8)
  contentType : Option (List UInt8)
  inserted : Int
  ttl : Int
  deriving DecidableEq

/-- `HttpCache`; `count` and `total_size` are those of the list. -/
structure HttpCache where
  entries : List CacheEntry
  maxEntries : Nat
  maxSize : Nat

/-- What a response is stored with. -/
structure Response where
  status : Nat
  body : List UInt8
  etag : Option (List UInt8)
  contentType : Option (List UInt8)
  cacheControl : Option (List UInt8)
  deriving DecidableEq

/-- `cache_evict`: from the end of the list until it is under the limits. -/
def cacheEvict (maxEntries maxSize : Nat) : Nat → List CacheEntry → List CacheEntry
  | 0, es => es
  | fuel + 1, es =>
    if es ≠ [] ∧ (maxEntries < es.length ∨ maxSize < (es.map (·.body.length)).sum) then
      cacheEvict maxEntries maxSize fuel es.dropLast
    else es

/-- `cache_find`. -/
def cacheFind (es : List CacheEntry) (key : List UInt8) : Option CacheEntry :=
  es.find? fun e => e.key = key

/-- The answers of `http_cache_get`. -/
inductive Lookup where
  | miss
  | hit (e : CacheEntry)
  | expired (e : CacheEntry)
  deriving DecidableEq

/-- `http_cache_get`: a fresh entry moves to the front. -/
def httpCacheGet (c : HttpCache) (now : Int) (r : Request) : HttpCache × Lookup :=
  match cacheFind c.entries (cacheBuildKey r).text with
  | none => (c, .miss)
  | some e =>
    if now - e.inserted ≤ e.ttl then ({ c with entries := e :: c.entries.erase e }, .hit e)
    else (c, .expired e)

/-- The responses that are stored at all. -/
def storable (r : Request) (resp : Response) : Bool :=
  !(cacheControlParse resp.cacheControl).noStore && !(r.vary = some (ascii "*")) &&
    200 ≤ resp.status && resp.status < 400

/-- The time to live. -/
def ttlOf (cc : CacheControl) : Int :=
  if 0 ≤ cc.sMaxage then cc.sMaxage else if 0 ≤ cc.maxAge then cc.maxAge else 60

/-- `http_cache_put`. -/
def httpCachePut (c : HttpCache) (now : Int) (r : Request) (resp : Response) : HttpCache :=
  if storable r resp then
    let key := (cacheBuildKey r).text
    let es := match cacheFind c.entries key with
      | some e => c.entries.erase e
      | none => c.entries
    let e : CacheEntry := ⟨key, resp.status, resp.body, resp.etag, resp.contentType, now,
      ttlOf (cacheControlParse resp.cacheControl)⟩
    { c with entries := cacheEvict c.maxEntries c.maxSize (es.length + 1) (e :: es) }
  else c

/-! ## §4. Calls. -/

/-- A call at a time. -/
inductive CacheCall where
  | get (now : Int) (r : Request)
  | put (now : Int) (r : Request) (resp : Response)
  deriving DecidableEq

/-- The request of a call. -/
def CacheCall.request : CacheCall → Request
  | .get _ r => r
  | .put _ r _ => r

/-- The state after a call. -/
def cacheStep (c : HttpCache) : CacheCall → HttpCache
  | .get now r => (httpCacheGet c now r).1
  | .put now r resp => httpCachePut c now r resp

/-- A sequence of calls from an empty cache. -/
def cacheRun (maxEntries maxSize : Nat) (cs : List CacheCall) : HttpCache :=
  cs.foldl cacheStep ⟨[], maxEntries, maxSize⟩

end Toke.Stdlib
