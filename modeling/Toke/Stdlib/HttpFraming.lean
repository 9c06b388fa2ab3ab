/-
  Toke.Stdlib.HttpFraming — **HOW LONG A REQUEST BODY IS** (phases 2 and 3 of `http.c`).

  A request with a `Content-Length` and a chunked body is refused.  The two
  scanners look at the first line of either name only, they want `chunked` to
  be the first coding, and they do not stop at the blank line.

    `framing_strict_iff`   — the header sections on which none of this matters
-/
import Toke.Stdlib.Http

namespace Toke.Stdlib.Http

open List Searching

/-! ## §1. Header sections. -/

/-- A line of a header section; an empty one would end it. -/
structure HeaderLine where
  text : List UInt8
  nonempty : text ≠ []
  plain : ∀ c ∈ text, c ≠ 13 ∧ c ≠ 0

/-- The lines, and the blank line behind them. -/
def headerSection : List HeaderLine → List UInt8
  | [] => crlf
  | l :: ls => l.text ++ crlf ++ headerSection ls

/-- The name of the line with the length. -/
def lengthName : List UInt8 := ascii "Content-Length:"

/-- The name of the lines with the codings. -/
def encodingName : List UInt8 := ascii "Transfer-Encoding:"

/-- The first line of a name. -/
def firstLine (name : List UInt8) (lines : List HeaderLine) : Option HeaderLine :=
  lines.find? fun l => startsNoCase name l.text

/-- A value that begins with `chunked`. -/
def saysChunked (v : List UInt8) : Bool := startsNoCase (ascii "chunked") (skipBlanks v)

/-- The transfer codings of all lines, in order; an empty list element is none. -/
def codings (lines : List HeaderLine) : List (List UInt8) :=
  ((lines.filter fun l => startsNoCase encodingName l.text).flatMap fun l =>
    ((l.text.drop encodingName.length).splitOn 44).map (trim isBlank)).filter (· ≠ [])

/-- The last coding is `chunked`. -/
def finalChunked (lines : List HeaderLine) : Bool :=
  (codings lines).getLast?.any fun c => sameNoCase c (ascii "chunked")

/-- The framing without the length. -/
def Framing.forget : Framing → Framing
  | .sized _ => .sized 0
  | x => x

/-! ## §2. The scanners. -/

/-- A name ends before the line does. -/
theorem startsNoCase_line {name : List UInt8} (hname : 13 ∉ name.map lower) (a t : List UInt8) :
    startsNoCase name (a ++ 13 :: t) = startsNoCase name a := by
  by_cases hlen : name.length ≤ a.length
  · simp only [startsNoCase, take_append_of_le_length hlen]
  · -- the line is too short for the name: its end would have to be a letter of the name
    have hshort : (a.take name.length).length ≠ name.length := by
      rw [length_take]
      omega
    have hin : (13 : UInt8) ∈ (a ++ 13 :: t).take name.length := by
      rw [take_append, mem_append]
      obtain ⟨k, hk⟩ := Nat.exists_eq_add_of_lt (Nat.not_le.mp hlen)
      rw [show name.length - a.length = k + 1 by omega]
      exact .inr mem_cons_self
    unfold startsNoCase
    rw [decide_eq_false, decide_eq_false]
    · intro h
      exact hshort (by simpa using congrArg length h)
    · intro h
      exact hname (h ▸ mem_map_of_mem (f := lower) hin)

/-- Nor does the test of the value look past the line. -/
theorem saysChunked_line (a t : List UInt8) : saysChunked (a ++ 13 :: t) = saysChunked a := by
  have hskip : skipBlanks (a ++ 13 :: t) = skipBlanks a ++ 13 :: t := by
    unfold skipBlanks
    rw [dropWhile_append]
    split
    · next hempty => rw [isEmpty_iff.mp hempty]; rfl
    · rfl
  unfold saysChunked
  rw [hskip, startsNoCase_line (by decide +kernel)]

/-- One turn of a scan. -/
theorem findField_line {name : List UInt8} (hname : 13 ∉ name.map lower) {a : List UInt8}
    (ha : 13 ∉ a) (rest : List UInt8) (fuel : Nat) :
    findField name (fuel + 1) (a ++ crlf ++ rest) =
      if startsNoCase name a then some ((a ++ crlf ++ rest).drop name.length)
      else findField name fuel rest := by
  have hafter : afterFirst crlf (a ++ crlf ++ rest) = some rest := by
    rw [append_assoc]
    exact (afterFirst_skip ha _).trans (afterFirst_here crlf rest)
  have hstart : startsNoCase name (a ++ crlf ++ rest) = startsNoCase name a := by
    rw [append_assoc]
    exact startsNoCase_line hname a (10 :: rest)
  rw [findField, hafter, hstart]

/-- The scan of a section ends at the first line of the name, or goes on behind
the blank line. -/
theorem findField_section {name : List UInt8} (hname : 13 ∉ name.map lower) (hne : name ≠ [])
    (body : List UInt8) : ∀ (lines : List HeaderLine) (fuel : Nat), lines.length < fuel →
    (∀ l, firstLine name lines = some l → ∃ t, findField name fuel (headerSection lines ++ body) =
        some (l.text.drop name.length ++ 13 :: t)) ∧
      (firstLine name lines = none → findField name fuel (headerSection lines ++ body) =
        findField name (fuel - lines.length - 1) body)
  | [], fuel + 1, _ => by
    have hblank : startsNoCase name [] = false := by simpa [startsNoCase] using hne.symm
    have h := findField_line hname not_mem_nil body fuel
    rw [hblank] at h
    exact ⟨fun l hl => (by cases hl), fun _ => h⟩
  | l :: ls, fuel + 1, hfuel => by
    have ih := findField_section hname hne body ls fuel (Nat.lt_of_succ_lt_succ hfuel)
    have hcr : 13 ∉ l.text := fun h => (l.plain 13 h).1 rfl
    have hline := findField_line hname hcr (headerSection ls ++ body) fuel
    rw [← append_assoc] at hline
    show (∀ k, _ → ∃ t, findField name _ (l.text ++ crlf ++ headerSection ls ++ body) = _) ∧
      (_ → findField name _ (l.text ++ crlf ++ headerSection ls ++ body) = _)
    unfold firstLine at ih ⊢
    rw [hline, find?_cons, length_cons, Nat.add_sub_add_right]
    cases hl : startsNoCase name l.text with
    | true =>
      have hlen : name.length ≤ l.text.length := by
        have h := congrArg length (of_decide_eq_true hl)
        simp only [length_map, length_take] at h
        omega
      refine ⟨fun k hk => ⟨10 :: (headerSection ls ++ body), ?_⟩, fun hnone => nomatch hnone⟩
      obtain rfl : l = k := Option.some.inj hk
      rw [append_assoc, append_assoc, drop_append_of_le_length hlen]
      rfl
    | false => exact ih

theorem length_lt_section (lines : List HeaderLine) : lines.length < (headerSection lines).length := by
  induction lines with
  | nil => decide
  | cons l ls ih =>
    simp only [headerSection, length_append, length_cons, crlf]
    omega

/-- How the body is delimited, by what the two scanners find. -/
def framingOf : Bool → Bool → Framing
  | true, true => .both
  | true, false => .sized 0
  | false, true => .chunked
  | false, false => .plain

theorem framingOf_inj : ∀ {a b a' b' : Bool}, framingOf a b = framingOf a' b' → a = a' ∧ b = b' := by
  decide

/-- The scan for a name over a whole buffer. -/
def scanFor (name s : List UInt8) : Option (List UInt8) := findField name (s.length + 1) s

/-- The framing is what the two scans find. -/
theorem framing_forget (s : List UInt8) : (framing s).forget =
    framingOf (scanFor lengthName s).isSome ((scanFor encodingName s).any saysChunked) := by
  have hlen : findField (ascii "Content-Length:") (s.length + 1) s = scanFor lengthName s := rfl
  have henc : (findField (ascii "Transfer-Encoding:") (s.length + 1) s).any
      (fun v => startsNoCase (ascii "chunked") (skipBlanks v)) =
        (scanFor encodingName s).any saysChunked := rfl
  unfold framing
  rw [hlen, henc]
  cases scanFor lengthName s <;> cases (scanFor encodingName s).any saysChunked <;> rfl

section

variable {name : List UInt8} (hname : 13 ∉ name.map lower) (hne : name ≠ [])
    {lines : List HeaderLine}

include hname hne

/-- A line of the name ends the scan. -/
theorem scanFor_hit {l : HeaderLine} (hl : firstLine name lines = some l) (body : List UInt8) :
    ∃ t, scanFor name (headerSection lines ++ body) = some (l.text.drop name.length ++ 13 :: t) := by
  refine (findField_section hname hne body lines _ ?_).1 l hl
  have hlen := length_lt_section lines
  rw [length_append]
  omega

/-- Without a line of the name, the scan reads on in whatever follows. -/
theorem scanFor_miss (hnone : firstLine name lines = none) :
    scanFor name (headerSection lines ++ []) = none ∧ ∀ value,
      scanFor name (headerSection lines ++ (name ++ value)) = some value := by
  have hmiss : ∀ body, ∃ k, scanFor name (headerSection lines ++ body) =
      findField name (k + 1) body := by
    intro body
    have hlen := length_lt_section lines
    refine ⟨(headerSection lines ++ body).length - lines.length - 1, ?_⟩
    have h := (findField_section hname hne body lines ((headerSection lines ++ body).length + 1)
      (by rw [length_append]; omega)).2 hnone
    rw [scanFor, h]
    congr 1
    rw [length_append]
    omega
  constructor
  · obtain ⟨k, hk⟩ := hmiss []
    rw [hk, findField, if_neg (by simpa [startsNoCase] using hne.symm)]
    rfl
  · intro value
    obtain ⟨k, hk⟩ := hmiss (name ++ value)
    rw [hk, findField, if_pos (by simp [startsNoCase]), drop_left]

end

theorem cstr_section (lines : List HeaderLine) (body : List UInt8) :
    cstr (headerSection lines ++ body) = headerSection lines ++ cstr body := by
  refine takeWhile_append_of_pos ?_
  induction lines with
  | nil => simp [headerSection, crlf]
  | cons l ls ih =>
    intro c hc
    simp only [headerSection, crlf, mem_append, mem_cons, not_mem_nil, or_false] at hc
    rcases hc with (hc | rfl | rfl) | hc
    · exact decide_eq_true (l.plain c hc).2
    · rfl
    · rfl
    · exact ih c hc

/-- Only a request with both is answered with 400. -/
theorem receiveBody_refused {cfg : Config} {hlen : Nat} {raw : List UInt8}
    {f : Streaming.Feed UInt8} :
    receiveBody cfg hlen raw f = .error (some 400) ↔ (framing (cstr raw)).forget = .both := by
  unfold receiveBody
  cases framing (cstr raw) with
  | both => simp [Framing.forget]
  | chunked => simp [Framing.forget]
  | plain => simp [Framing.forget]
  | sized cl =>
    refine iff_of_false ?_ (by simp [Framing.forget])
    dsimp only
    split
    · simp
    · split <;> simp

/-- **A request with both is refused, and only its header section decides**,
exactly when the section has a line of either name and, where the last coding
is `chunked`, the first `Transfer-Encoding` line begins with it. -/
theorem framing_strict_iff (lines : List HeaderLine) :
    (((firstLine lengthName lines).isSome = true ∧ finalChunked lines = true → ∀ cfg hlen body f,
          receiveBody cfg hlen (headerSection lines ++ body) f = .error (some 400)) ∧
      ∀ body body', (framing (cstr (headerSection lines ++ body))).forget =
        (framing (cstr (headerSection lines ++ body'))).forget) ↔
    (firstLine lengthName lines).isSome = true ∧ ∃ l, firstLine encodingName lines = some l ∧
      (finalChunked lines = true → saysChunked (l.text.drop encodingName.length) = true) := by
  have hlen : 13 ∉ lengthName.map lower ∧ lengthName ≠ [] := by decide +kernel
  have henc : 13 ∉ encodingName.map lower ∧ encodingName ≠ [] := by decide +kernel
  simp only [receiveBody_refused, cstr_section, framing_forget]
  constructor
  · rintro ⟨hboth, hsame⟩
    cases hl : firstLine lengthName lines with
    | none =>
      -- a body that starts with the name would turn the request into one with a length
      obtain ⟨hnone, hsome⟩ := scanFor_miss hlen.1 hlen.2 hl
      have h := (framingOf_inj (hsame [] lengthName)).1
      rw [show cstr lengthName = lengthName ++ [] by decide +kernel, hsome,
        show cstr [] = [] from rfl, hnone] at h
      cases h
    | some k =>
      cases he : firstLine encodingName lines with
      | none =>
        obtain ⟨hnone, hsome⟩ := scanFor_miss henc.1 henc.2 he
        have h := (framingOf_inj (hsame [] (encodingName ++ ascii "chunked"))).2
        rw [show cstr (encodingName ++ ascii "chunked") = encodingName ++ ascii "chunked" by
          decide +kernel, hsome, show cstr [] = [] from rfl, hnone] at h
        cases h
      | some l =>
        refine ⟨rfl, l, rfl, fun hfinal => ?_⟩
        have h := hboth ⟨by rw [hl]; rfl, hfinal⟩ ⟨0, 0, false, fun _ => false⟩ 0 [] ⟨[], by simp⟩
        obtain ⟨t, ht⟩ := scanFor_hit henc.1 henc.2 he (cstr [])
        rw [← saysChunked_line _ t]
        rw [ht] at h
        exact (framingOf_inj (h.trans (show Framing.both = framingOf true true from rfl))).2
  · rintro ⟨hl, l, he, hfirst⟩
    obtain ⟨k, hk⟩ := Option.isSome_iff_exists.mp hl
    -- both scans end inside the section, so no body matters
    have hscan : ∀ body, framingOf (scanFor lengthName (headerSection lines ++ cstr body)).isSome
        ((scanFor encodingName (headerSection lines ++ cstr body)).any saysChunked) =
          framingOf true (saysChunked (l.text.drop encodingName.length)) := by
      intro body
      obtain ⟨t, ht⟩ := scanFor_hit hlen.1 hlen.2 hk (cstr body)
      obtain ⟨u, hu⟩ := scanFor_hit henc.1 henc.2 he (cstr body)
      rw [ht, hu, ← saysChunked_line _ u]
      rfl
    simp only [hscan, hl, true_and, implies_true, and_true]
    intro hfinal
    rw [hfirst hfinal]
    exact fun _ _ _ _ => rfl

/-- `Content-Length: 5` and `Transfer-Encoding: gzip, chunked`. -/
theorem both_not_refused :
    let lines : List HeaderLine := [⟨ascii "Content-Length: 5", by decide +kernel, by decide +kernel⟩,
      ⟨ascii "Transfer-Encoding: gzip, chunked", by decide +kernel, by decide +kernel⟩]
    finalChunked lines = true ∧ framing (cstr (headerSection lines)) = .sized 5 := by decide +kernel

end Toke.Stdlib.Http
