/-
  Toke.Stdlib.Routes — **WHICH ROUTE ANSWERS A REQUEST** (`http.c`).

  The server of `http.c` takes the first route, other than `*`, whose pattern
  matches: a parameter route that is registered before a literal one hides it.

    `dispatch_prefers_iff`   — when the literal route, or else a parameter
                               route, is the one that runs
-/
import Toke.Stdlib.Encoding

namespace Toke.Stdlib.Routes

/-! ## §1. The route table of `http.c`. -/

/-- A registered route with its handler. -/
structure Route (H : Type) where
  method : List UInt8
  pattern : List UInt8
  handler : H
  deriving DecidableEq

variable {H : Type}

/-- What stands before the query and the fragment. -/
def pathComponent (target : List UInt8) : List UInt8 := target.takeWhile fun c => c ≠ 63 && c ≠ 35

/-- `http_path_only`: a path with something behind it is copied to a buffer, as far as it fits. -/
def httpPathOnly (target : List UInt8) (buflen : Nat) : List UInt8 :=
  if pathComponent target = target then target else (pathComponent target).take (buflen - 1)

/-- The loop of `match_pattern`, with the parameters captured so far. -/
def matchLoop : Nat → List UInt8 → List UInt8 → List (List UInt8 × List UInt8) →
    Bool × List (List UInt8 × List UInt8)
  | fuel + 1, c :: pat, d :: path, out =>
    if c = 58 then
      matchLoop fuel (pat.dropWhile (· ≠ 47)) ((d :: path).dropWhile (· ≠ 47))
        (out ++ [(pat.takeWhile (· ≠ 47), (d :: path).takeWhile (· ≠ 47))])
    else if c = d then matchLoop fuel pat path out
    else (false, out)
  | _, pat, path, out => (pat.isEmpty && path.isEmpty, out)

/-- The pattern `*`. -/
def star : List UInt8 := [42]

/-- `match_pattern`; every turn takes a letter off the pattern. -/
def matchPattern (pat path : List UInt8) : Bool × List (List UInt8 × List UInt8) :=
  if pat = star then (true, []) else matchLoop pat.length pat path []

/-- The length of `params`. -/
def maxParams : Nat := 32

/-- The scan over the table; `none` when a match writes behind `params`. -/
def scanRoutes (method path : List UInt8) :
    List (Route H) → Option (Route H) → Option (Option (Route H))
  | [], best => some best
  | r :: rs, best =>
    if maxParams < (matchPattern r.pattern path).2.length then none
    else if (matchPattern r.pattern path).1 ∧ r.method = method then
      -- a `*` route is only kept for the case that no other matches
      if r.pattern ≠ star then some (some r) else scanRoutes method path rs (best <|> some r)
    else scanRoutes method path rs best

/-- A `HEAD` request is answered by the `GET` route. -/
def checkMethod (method : List UInt8) : List UInt8 :=
  if method = ascii "HEAD" then ascii "GET" else method

/-- The route whose handler runs, with the parameters it gets. -/
def dispatch (routes : List (Route H)) (method target : List UInt8) :
    Option (Option (Route H × List (List UInt8 × List UInt8))) :=
  let path := httpPathOnly target 2048
  (scanRoutes (checkMethod method) path routes none).map fun best =>
    best.map fun r => (r, (matchPattern r.pattern path).2)

/-- A route of the method without parameters that is the path itself. -/
def Literal (method path : List UInt8) (r : Route H) : Prop :=
  r.method = method ∧ 58 ∉ r.pattern ∧ r.pattern ≠ star ∧ r.pattern = path

/-- A route of the method, other than `*`, that matches the path. -/
def Fits (method path : List UInt8) (r : Route H) : Prop :=
  r.pattern ≠ star ∧ (matchPattern r.pattern path).1 = true ∧ r.method = method

/-- A literal route; without one, a parameter route that matches. -/
def Preferred (routes : List (Route H)) (method path : List UInt8) (r : Route H) : Prop :=
  Literal method path r ∨
    (∀ q ∈ routes, ¬ Literal method path q) ∧ 58 ∈ r.pattern ∧ Fits method path r

/-- No route before `r` fits, and none up to `r` has more parameters than there is room for. -/
def FirstFit (method path : List UInt8) (r : Route H) : List (Route H) → Prop
  | [] => False
  | q :: qs => (matchPattern q.pattern path).2.length ≤ maxParams ∧
      (q = r ∧ Fits method path r ∨ ¬ Fits method path q ∧ FirstFit method path r qs)

theorem scanRoutes_iff {method path : List UInt8} {r : Route H} (hr : r.pattern ≠ star) :
    ∀ (routes : List (Route H)) {best : Option (Route H)}, (∀ b ∈ best, b.pattern = star) →
      (scanRoutes method path routes best = some (some r) ↔ FirstFit method path r routes)
  | [], best, hbest => by
    simp only [scanRoutes, FirstFit, Option.some.injEq, iff_false]
    exact fun h => hr (hbest r h)
  | q :: qs, best, hbest => by
    have ih : ∀ {b : Option (Route H)}, (∀ x ∈ b, x.pattern = star) →
        (scanRoutes method path qs b = some (some r) ↔ FirstFit method path r qs) :=
      scanRoutes_iff hr qs
    unfold scanRoutes FirstFit
    by_cases hroom : maxParams < (matchPattern q.pattern path).2.length
    · simp [Nat.not_le.mpr hroom]
    rw [if_neg hroom, and_iff_right (Nat.not_lt.mp hroom)]
    by_cases hfit : Fits method path q
    · rw [if_pos hfit.2, if_pos hfit.1]
      constructor
      · rintro ⟨⟩
        exact .inl ⟨rfl, hfit⟩
      · rintro (⟨rfl, -⟩ | ⟨hno, -⟩)
        · rfl
        · exact absurd hfit hno
    -- a route that does not fit leaves at most itself, a `*`, as the fallback
    have hrest : (q = r ∧ Fits method path r ∨ ¬ Fits method path q ∧ FirstFit method path r qs) ↔
        FirstFit method path r qs :=
      ⟨fun h => (h.resolve_left fun hq => hfit (hq.1 ▸ hq.2)).2, fun h => .inr ⟨hfit, h⟩⟩
    rw [hrest]
    by_cases hm : (matchPattern q.pattern path).1 ∧ q.method = method
    · have hstar : q.pattern = star := by_contra fun h => hfit ⟨h, hm⟩
      rw [if_pos hm, if_neg (not_not.mpr hstar)]
      refine ih fun b hb => ?_
      cases best with
      | none => exact Option.some.inj hb ▸ hstar
      | some x => exact hbest b hb
    · rw [if_neg hm]
      exact ih hbest

/-- **A literal route runs, and without one a parameter route before `*`**,
exactly when such a route is the first that fits the path. -/
theorem dispatch_prefers_iff (routes : List (Route H)) (method target : List UInt8) :
    let preferred := Preferred routes (checkMethod method) (pathComponent target)
    let path := httpPathOnly target 2048
    ((∃ r ∈ routes, preferred r) → ∃ r, preferred r ∧
        dispatch routes method target = some (some (r, (matchPattern r.pattern path).2))) ↔
    ((∃ r ∈ routes, preferred r) →
      ∃ r, preferred r ∧ FirstFit (checkMethod method) path r routes) := by
  intro preferred path
  refine imp_congr_right fun _ => exists_congr fun r => and_congr_right fun hp => ?_
  have hstar : r.pattern ≠ star := by
    rcases hp with hlit | ⟨-, -, hfit⟩
    · exact hlit.2.2.1
    · exact hfit.1
  have hnone : ∀ b ∈ (none : Option (Route H)), b.pattern = star := by simp
  rw [← scanRoutes_iff hstar routes hnone]
  show (scanRoutes _ path routes none).map _ = _ ↔ _
  rw [Option.map_eq_some_iff]
  constructor
  · rintro ⟨best, hscan, hbest⟩
    obtain ⟨q, rfl, hq⟩ := Option.map_eq_some_iff.mp hbest
    have hsame : q = r := congrArg Prod.fst hq
    rw [hscan, hsame]
  · exact fun hscan => ⟨some r, hscan, rfl⟩

/-- `/u/:id` hides the literal route that is registered behind it. -/
theorem literal_route_hidden : let routes : List (Route Nat) :=
      [⟨ascii "GET", ascii "/u/:id", 0⟩, ⟨ascii "GET", ascii "/u/me", 1⟩]
    Literal (ascii "GET") (pathComponent (ascii "/u/me")) ⟨ascii "GET", ascii "/u/me", 1⟩ ∧
      (dispatch routes (ascii "GET") (ascii "/u/me")).map (Option.map (·.1.handler)) =
        some (some 0) := by
  constructor
  · refine ⟨rfl, ?_, ?_, ?_⟩ <;> decide +kernel
  · decide +kernel

end Toke.Stdlib.Routes
