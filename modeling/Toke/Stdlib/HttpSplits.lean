/-
  Toke.Stdlib.HttpSplits — **WHEN PACKET BOUNDARIES DO NOT MATTER.**

  A read for the head may return bytes behind it.  They enter the framing
  decision and the body of the request, and they are gone for the next one.
  `framed` describes the streams on which this does no harm: what can be read
  beyond a head belongs to the request's own body and does not change its
  framing.  On such a stream the connection computes a function of the bytes
  alone (`serve_eq_stream`), so all ways to cut it into packets agree
  (`splits_agree`).
-/
import Toke.Stdlib.Http

namespace Toke.Stdlib.Http

open List Streaming Searching

variable {h k : Nat} {s : List UInt8} {cfg : Config} {f : Feed UInt8}

/-! ## §1. Heads. -/

theorem cstr_append (a b : List UInt8) : ∃ t, cstr (a ++ b) = cstr a ++ t := by
  induction a with
  | nil => exact ⟨cstr b, rfl⟩
  | cons x a ih =>
    obtain ⟨t, ht⟩ := ih
    unfold cstr at ht ⊢
    rw [cons_append, takeWhile_cons, takeWhile_cons, ht]
    by_cases hx : decide (x ≠ 0)
    · exact ⟨t, by rw [if_pos hx, if_pos hx]; rfl⟩
    · exact ⟨[], by rw [if_neg hx, if_neg hx]; rfl⟩

/-- More bytes behind a complete head do not change it. -/
theorem headLength_append {a : List UInt8} (b : List UInt8) (hh : headLength a = some h) :
    headLength (a ++ b) = some h := by
  unfold headLength at hh ⊢
  obtain ⟨r, hr, rfl⟩ := Option.map_eq_some_iff.mp hh
  obtain ⟨t, ht⟩ := cstr_append a b
  rw [ht, afterFirst_append t hr, Option.map_some, length_append, length_append,
    Nat.add_sub_add_right]

theorem headLength_le {a : List UInt8} (hh : headLength a = some h) : h ≤ a.length := by
  obtain ⟨r, _, rfl⟩ := Option.map_eq_some_iff.mp hh
  have hle : (cstr a).length ≤ a.length := (takeWhile_sublist _).length_le
  omega

/-- Phase 1 stops inside the first `maxHeader` bytes, with a complete head or
with a full buffer; or the stream ends before. -/
theorem readHead_cases (cfg : Config) (f : Feed UInt8) :
    (∃ k g, fill (headWant cfg) cfg.maxHeader [] f = (some (f.rest.take k), g) ∧
        g.rest = f.rest.drop k ∧ k ≤ cfg.maxHeader ∧ k ≤ f.rest.length ∧
        ((headLength (f.rest.take k)).isSome ∨ k = cfg.maxHeader)) ∨
      (∃ g, fill (headWant cfg) cfg.maxHeader [] f = (none, g) ∧ headLength f.rest = none ∧
        f.rest.length < cfg.maxHeader) := by
  have hstep : ∀ buf b : List UInt8, buf.length ≤ cfg.maxHeader → b.length ≤ headWant cfg buf →
      (buf ++ b).length ≤ cfg.maxHeader := by
    intro buf b hbuf hb
    have hwant : headWant cfg buf ≤ cfg.maxHeader - buf.length := by
      unfold headWant
      split <;> omega
    rw [length_append]
    omega
  have hmost : ∀ buf : List UInt8, buf.length ≤ cfg.maxHeader → cfg.maxHeader ≤ buf.length →
      headWant cfg buf = 0 := by
    intro buf _ hfull
    unfold headWant
    split <;> omega
  rcases fill_cases (I := fun buf => buf.length ≤ cfg.maxHeader) hstep hmost cfg.maxHeader [] f
      (Nat.zero_le _) (by omega) with ⟨b, g, heq, hrest, hle, hdone⟩ | ⟨g, heq, _, _, hmore⟩
  · simp only [nil_append] at heq hle hdone
    refine Or.inl ⟨b.length, g, ?_, ?_, hle, ?_, ?_⟩
    · rw [heq, hrest, take_left]
    · rw [hrest, drop_left]
    · rw [hrest, length_append]
      omega
    · rw [hrest, take_left]
      unfold headWant at hdone
      by_cases hhead : (headLength b).isSome
      · exact Or.inl hhead
      · rw [if_neg hhead] at hdone
        exact Or.inr (by omega)
  · refine Or.inr ⟨g, heq, ?_, ?_⟩
    · by_cases hhead : (headLength f.rest).isSome
      · exact absurd (if_pos hhead) hmore
      · exact Option.not_isSome_iff_eq_none.mp hhead
    · simp only [nil_append, headWant] at hmore
      by_cases hhead : (headLength f.rest).isSome
      · exact absurd (if_pos hhead) hmore
      · rw [if_neg hhead] at hmore
        omega

/-! ## §2. Framed streams. -/

/-- The length of the next request on a stream of which every byte is there,
or why there is none; a chunked body is not counted. -/
def nextRequest (cfg : Config) (s : List UInt8) : Except (Option Nat) Nat :=
  match headLength (s.take cfg.maxHeader) with
  | none => .error (if s.length < cfg.maxHeader then none else some 431)
  | some h =>
    match framing (cstr (s.take h)) with
    | .both => .error (some 400)
    | .chunked => .ok h
    | .plain => .ok h
    | .sized cl =>
      match bodyLength cfg cl with
      | none => .error (some 413)
      | some n => if s.length < h + n then .error none else .ok (h + n)

/-- The exchanges of a stream, a function of its bytes. -/
def serveStream (cfg : Config) : Nat → List UInt8 → List Exchange
  | 0, _ => []
  | fuel + 1, s =>
    match nextRequest cfg s with
    | .error none => []
    | .error (some status) => [.error status]
    | .ok len =>
      let raw := cstr (s.take len)
      if upgrades cfg (parseRequest raw) then []
      else
        dispatch cfg (parseRequest raw) ::
          (if reqWantsClose raw then [] else serveStream cfg fuel (s.drop len))

/-- The bytes a read for the head may bring along do not change the framing. -/
def settled (cfg : Config) (s : List UInt8) (h : Nat) : Bool :=
  (List.range (min cfg.maxHeader s.length + 1)).all fun k =>
    k < h || framing (cstr (s.take k)) = framing (cstr (s.take h))

/-- A read for the head of the next request cannot go beyond that request. -/
def contained (cfg : Config) (s : List UInt8) : Bool :=
  match headLength (s.take cfg.maxHeader) with
  | none => true
  | some h =>
    settled cfg s h &&
      match framing (cstr (s.take h)) with
      | .both => true
      | .chunked => s.length = h
      | .plain => min cfg.maxHeader s.length ≤ h
      | .sized cl =>
        match bodyLength cfg cl with
        | none => true
        | some n => min cfg.maxHeader s.length ≤ h + n

/-- Every request the connection reads from the stream is contained. -/
def framed (cfg : Config) : Nat → List UInt8 → Bool
  | 0, _ => true
  | fuel + 1, s =>
    contained cfg s &&
      match nextRequest cfg s with
      | .error _ => true
      | .ok len =>
        upgrades cfg (parseRequest (cstr (s.take len))) || reqWantsClose (cstr (s.take len)) ||
          framed cfg fuel (s.drop len)

/-! ## §3. One request. -/

theorem headLength_take {m : Nat} (hk : k ≤ m)
    (hh : headLength (s.take k) = some h) : headLength (s.take m) = some h := by
  have hsplit : s.take m = s.take k ++ (s.take m).drop k := by
    conv_lhs => rw [← take_append_drop k (s.take m), take_take, Nat.min_eq_left hk]
  rw [hsplit]
  exact headLength_append _ hh

theorem receive_no_head (hnone : headLength (f.rest.take cfg.maxHeader) = none) :
    receive cfg f = .error (if f.rest.length < cfg.maxHeader then none else some 431) := by
  rcases readHead_cases cfg f with ⟨k, g, heq, _, hk, hlen, hend⟩ | ⟨g, heq, _, hshort⟩
  · have hhead : headLength (f.rest.take k) = none := by
      cases hh : headLength (f.rest.take k) with
      | none => rfl
      | some h => rw [headLength_take hk hh] at hnone; cases hnone
    have hfull : k = cfg.maxHeader := by
      rcases hend with hsome | hfull
      · rw [hhead] at hsome
        cases hsome
      · exact hfull
    rw [if_neg (by omega)]
    unfold receive
    rw [heq]
    simp only [hhead]
  · rw [if_pos hshort]
    unfold receive
    rw [heq]

/-- The buffer after phase 1 is the head and some of what follows it. -/
theorem readHead_some (hsome : headLength (f.rest.take cfg.maxHeader) = some h) :
    ∃ k g, fill (headWant cfg) cfg.maxHeader [] f = (some (f.rest.take k), g) ∧
      g.rest = f.rest.drop k ∧ h ≤ k ∧ k ≤ min cfg.maxHeader f.rest.length ∧
      headLength (f.rest.take k) = some h := by
  rcases readHead_cases cfg f with ⟨k, g, heq, hrest, hk, hlen, hend⟩ | ⟨g, _, hnone, hshort⟩
  · have hhead : headLength (f.rest.take k) = some h := by
      rcases hend with hend | rfl
      · obtain ⟨h', hh'⟩ := Option.isSome_iff_exists.mp hend
        rw [headLength_take hk hh'] at hsome
        rwa [← hsome]
      · exact hsome
    have hle := headLength_le hhead
    rw [length_take] at hle
    exact ⟨k, g, heq, hrest, by omega, by omega, hhead⟩
  · rw [take_of_length_le (by omega), hnone] at hsome
    cases hsome

/-- Phase 3 takes exactly the missing bytes, or the stream ends before. -/
theorem readBody_eq {raw : List UInt8} {total n : Nat} (hraw : raw.length ≤ total)
    (hn : total ≤ raw.length + n) (hcap : total ≤ cfg.maxHeader + cfg.maxBody) :
    (total ≤ raw.length + f.rest.length → ∃ g,
        fill (bodyWant cfg total) n raw f = (some (raw ++ f.rest.take (total - raw.length)), g) ∧
        g.rest = f.rest.drop (total - raw.length)) ∧
      (raw.length + f.rest.length < total → ∃ g, fill (bodyWant cfg total) n raw f = (none, g)) := by
  -- below the limits the buffer is never the bound
  have hwant : ∀ buf : List UInt8, buf.length ≤ total → bodyWant cfg total buf = total - buf.length := by
    intro buf hbuf
    unfold bodyWant
    omega
  have hstep : ∀ buf b : List UInt8, buf.length ≤ total → b.length ≤ bodyWant cfg total buf →
      (buf ++ b).length ≤ total := by
    intro buf b hbuf hb
    rw [hwant buf hbuf] at hb
    rw [length_append]
    omega
  have hmost : ∀ buf : List UInt8, buf.length ≤ total → total ≤ buf.length →
      bodyWant cfg total buf = 0 := by
    intro buf hbuf hfull
    rw [hwant buf hbuf]
    omega
  rcases fill_cases (I := fun buf => buf.length ≤ total) hstep hmost n raw f hraw hn with
    ⟨b, g, heq, hrest, hle, hdone⟩ | ⟨g, heq, _, hle, hmore⟩
  · rw [hwant _ hle, length_append] at hdone
    rw [length_append] at hle
    have hb : b.length = total - raw.length := by omega
    constructor
    · intro _
      refine ⟨g, ?_, ?_⟩
      · rw [heq, hrest, ← hb, take_left]
      · rw [hrest, ← hb, drop_left]
    · intro hshort
      rw [hrest, length_append] at hshort
      omega
  · rw [hwant _ hle, length_append] at hmore
    constructor
    · intro hlong
      omega
    · intro _
      exact ⟨g, heq⟩

theorem settled_framing (hs : settled cfg s h) (hk : k ≤ min cfg.maxHeader s.length)
    (hh : h ≤ k) :
    framing (cstr (s.take k)) = framing (cstr (s.take h)) := by
  unfold settled at hs
  rw [all_eq_true] at hs
  have hall := hs k (mem_range.mpr (by omega))
  rw [Bool.or_eq_true, decide_eq_true_eq, decide_eq_true_eq] at hall
  exact hall.resolve_left (by omega)

/-- Behind the head, `k` bytes of the stream are in the buffer and the rest is
still to come: a body of known length ends the buffer where the request ends. -/
theorem receiveBody_sized {g : Feed UInt8} {cl : Int64} {n : Nat} (hrest : g.rest = s.drop k)
    (hhk : h ≤ k) (hks : k ≤ s.length) (hkh : k ≤ h + n)
    (hcap : h + n ≤ cfg.maxHeader + cfg.maxBody) (hframe : framing (cstr (s.take k)) = .sized cl)
    (hbody : bodyLength cfg cl = some n) :
    (s.length < h + n → receiveBody cfg h (s.take k) g = .error none) ∧
      (h + n ≤ s.length → ∃ g', receiveBody cfg h (s.take k) g = .ok (s.take (h + n), false, g') ∧
        g'.rest = s.drop (h + n)) := by
  have hlen : (s.take k).length = k := by rw [length_take]; omega
  have hremains : g.rest.length = s.length - k := by rw [hrest, length_drop]
  have hread := @readBody_eq cfg g (s.take k) (h + n) n (by omega) (by omega) hcap
  constructor
  · intro hshort
    obtain ⟨g', heq⟩ := hread.2 (by omega)
    unfold receiveBody
    simp only [hframe, hbody, heq]
  · intro hlong
    obtain ⟨g', heq, hrest'⟩ := hread.1 (by omega)
    refine ⟨g', ?_, ?_⟩
    · have htake : s.take k ++ (s.drop k).take (h + n - k) = s.take (h + n) := by
        rw [← take_add]
        congr 1
        omega
      unfold receiveBody
      simp only [hframe, hbody, heq, hlen, hrest, htake]
    · rw [hrest', hrest, drop_drop]
      congr 1
      omega

/-- A contained request is received whole, and nothing beyond it. -/
theorem receive_eq (hc : contained cfg f.rest) :
    (∀ e, nextRequest cfg f.rest = .error e → receive cfg f = .error e) ∧
      (∀ len, nextRequest cfg f.rest = .ok len → ∃ chunked g,
        receive cfg f = .ok (f.rest.take len, chunked, g) ∧ g.rest = f.rest.drop len ∧
          (chunked → g.rest = [])) := by
  unfold contained at hc
  unfold nextRequest
  cases hhead : headLength (f.rest.take cfg.maxHeader) with
  | none =>
    simp only [Except.error.injEq, reduceCtorEq, false_implies, implies_true, and_true, forall_eq']
    exact receive_no_head hhead
  | some h =>
    simp only [hhead, Bool.and_eq_true] at hc
    obtain ⟨hset, hc⟩ := hc
    obtain ⟨k, g, heq, hrest, hhk, hk, hheadk⟩ := readHead_some hhead
    have hframe := settled_framing hset hk hhk
    have hreceive : receive cfg f = receiveBody cfg h (f.rest.take k) g := by
      unfold receive
      simp only [heq, hheadk]
    rw [hreceive]
    cases hf : framing (cstr (f.rest.take h)) with
    | both => simp [receiveBody, hframe, hf]
    | chunked =>
      simp only [hf, decide_eq_true_eq] at hc
      have hkh : k = h := by omega
      subst hkh
      simp [receiveBody, hf, hrest, hc.le]
    | plain =>
      simp only [hf, decide_eq_true_eq] at hc
      have hkh : k = h := by omega
      subst hkh
      simp [receiveBody, hf, hrest]
    | sized cl =>
      simp only [hf] at hc
      cases hbody : bodyLength cfg cl with
      | none => simp [receiveBody, hframe, hf, hbody]
      | some n =>
        simp only [hbody, decide_eq_true_eq] at hc
        have hmax : n ≤ cfg.maxBody := by
          unfold bodyLength at hbody
          split at hbody
          · cases hbody
          · injection hbody with hbody
            omega
        obtain ⟨hshort, hlong⟩ := receiveBody_sized hrest hhk (by omega) (by omega)
          (by omega) (hframe.trans hf) hbody
        by_cases hlen : f.rest.length < h + n
        · simp [hf, hbody, hlen, hshort hlen]
        · obtain ⟨g', hok, hrest'⟩ := hlong (by omega)
          simp [hf, hbody, hlen, hok, hrest']

/-! ## §4. The connection. -/

/-- At the end of the stream there is no chunked body. -/
theorem httpChunkedRead_end (cfg : Config) (hend : f.rest = []) :
    httpChunkedRead cfg f = (none, f) := by
  unfold httpChunkedRead chunkLoop readLine
  rw [Feed.recv_of_rest_nil hend]
  rfl

theorem withBody_of_end {chunked : Bool} (req : Req)
    (h : chunked → f.rest = []) : withBody cfg chunked req f = (req, f) := by
  cases chunked with
  | false => rfl
  | true =>
    unfold withBody
    rw [httpChunkedRead_end cfg (h rfl)]
    rfl

/-- On a framed stream the connection is a function of the bytes. -/
theorem serve_eq_stream (cfg : Config) (fuel : Nat) (f : Feed UInt8)
    (h : framed cfg fuel f.rest) : serve cfg fuel f = serveStream cfg fuel f.rest := by
  induction fuel generalizing f with
  | zero => rfl
  | succ fuel ih =>
    unfold framed at h
    rw [Bool.and_eq_true] at h
    obtain ⟨hc, hnext⟩ := h
    obtain ⟨herror, hok⟩ := receive_eq hc
    unfold serve serveStream
    cases hreq : nextRequest cfg f.rest with
    | error e =>
      rw [herror e hreq]
      cases e <;> rfl
    | ok len =>
      obtain ⟨chunked, g, heq, hrest, hchunk⟩ := hok len hreq
      simp only [hreq, Bool.or_eq_true] at hnext
      rw [heq]
      simp only [withBody_of_end _ hchunk]
      by_cases hup : upgrades cfg (parseRequest (cstr (f.rest.take len)))
      · rw [if_pos hup, if_pos hup]
      · by_cases hclose : reqWantsClose (cstr (f.rest.take len))
        · rw [if_pos hclose, if_pos hclose]
        · have hframed := hnext.resolve_left (by simp [hup, hclose])
          rw [if_neg hclose, if_neg hclose, ih g (by rw [hrest]; exact hframed), hrest]

/-- Two ways to cut a framed stream into packets give the router the same requests. -/
theorem splits_agree (cfg : Config) (f g : Feed UInt8) (hsame : f.rest = g.rest)
    (h : framed cfg keepaliveMaxRequests f.rest = true) :
    routedRequests cfg f = routedRequests cfg g := by
  unfold routedRequests handleConnection
  rw [serve_eq_stream cfg _ f h, hsame]
  rw [serve_eq_stream cfg _ g (by rw [← hsame]; exact h)]

/-- The limits a server starts with. -/
def defaultConfig : Config := ⟨8192, 1048576, false, fun _ => false⟩

/-- A request whose body comes with the head or by itself. -/
theorem splits_agree_body : routedRequests defaultConfig
        ⟨[ascii "PUT /a HTTP/1.1\r\nContent-Length: 2\r\n\r\nhi"], by decide +kernel⟩ =
      routedRequests defaultConfig
        ⟨[ascii "PUT /a HTTP/1.1\r\nContent-Length: 2\r\n\r\n", ascii "hi"], by decide +kernel⟩ :=
  splits_agree defaultConfig _ _ (by decide +kernel) (by decide +kernel)

/-- Two pipelined requests: in one packet the second becomes the body of the first. -/
theorem pipelined_request_swallowed : routedRequests defaultConfig
        ⟨[ascii "GET /a HTTP/1.1\r\n\r\nGET /b HTTP/1.1\r\n\r\n"], by decide +kernel⟩ =
      [⟨some (ascii "GET"), some (ascii "/a"), [], some (ascii "GET /b HTTP/1.1\r\n\r\n")⟩] ∧
    routedRequests defaultConfig
        ⟨[ascii "GET /a HTTP/1.1\r\n\r\n", ascii "GET /b HTTP/1.1\r\n\r\n"], by decide +kernel⟩ =
      [⟨some (ascii "GET"), some (ascii "/a"), [], some []⟩,
        ⟨some (ascii "GET"), some (ascii "/b"), [], some []⟩] := by constructor <;> decide +kernel

end Toke.Stdlib.Http
