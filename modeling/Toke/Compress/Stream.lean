/-
  Toke.Compress.Stream — **THE STREAMING COMPRESSOR** (`compress.c`, streaming API).

  `compress_stream_feed` copies its chunk into a buffer of 4095 bytes, writes
  the tokens of the buffer and moves what it holds back to the front.  It holds
  a word back only while bytes of THE SAME CALL are still to come, so a call
  whose chunk fits the buffer writes everything, the last word included.
-/
import Toke.Compress.RoundTrip

namespace Toke.Compress

/-! ## §1. The context and its tokens. -/

/-- `COMPRESS_STREAM_BUFSZ`. -/
def streamBufSize : Nat := 4096

/-- `CompressStreamCtx`; `out` is what has been written to the sink. -/
structure StreamCtx where
  pending : List Char
  out : List Char
  totalIn : Nat
  totalOut : Nat
  deriving DecidableEq

/-- `compress_stream_init`. -/
def compressStreamInit : StreamCtx := ⟨[], [], 0, 0⟩

/-- `emit_token`: a placeholder as it is, a word abbreviated where it can be. -/
def emitToken (token : List Char) : List Char :=
  if isPlaceholderStart token then token
  else
    match token with
    | [] => []
    | c :: _ => if isLetter c then (abbrForWord token).getD token else token

/-! ## §2. Feed. -/

/-- One turn over the buffer: what is written and what is left of it, or `none`
for `break`.  `more` says that the chunk is not yet in the buffer as a whole. -/
def feedStep (more : Bool) (s : List Char) : Option (List Char × List Char) :=
  if isPlaceholderStart s then
    if placeholderLen s > s.length && more then none
    else some (emitToken (s.take (placeholderLen s)), s.drop (placeholderLen s))
  else
    match s with
    | [] => none
    | c :: rest =>
      if isSpace c then some ([collapsed (s.takeWhile isSpace)], s.dropWhile isSpace)
      else if isLetter c then
        -- a word that reaches the end of the buffer may go on
        if (s.takeWhile isAlnum).length ≥ s.length && more then none
        else some (emitToken (s.takeWhile isAlnum), s.dropWhile isAlnum)
      else some ([c], rest)

/-- The loop over the buffer: what is written, and what is held back. -/
def drain (more : Bool) : Nat → List Char → List Char × List Char
  | 0, s => ([], s)
  | fuel + 1, s =>
    match feedStep more s with
    | none => ([], s)
    | some (w, rest) => (w ++ (drain more fuel rest).1, (drain more fuel rest).2)

/-- `while (ci < len || ctx->pending_len > 0)`: what the call writes and what it
leaves pending, or `none` when the turns do not suffice. -/
def feedLoop : Nat → List Char → List Char → Option (List Char × List Char)
  | 0, _, _ => none
  | fuel + 1, pending, chunk =>
    if chunk = [] ∧ pending = [] then some ([], [])
    else
      let room := streamBufSize - 1 - pending.length
      let buffer := pending ++ chunk.take room
      let left := chunk.drop room
      let r := drain (left ≠ []) buffer.length buffer
      if left = [] then some r
      else (feedLoop fuel r.2 left).map fun r' => (r.1 ++ r'.1, r'.2)

/-- `compress_stream_feed`.  A turn that is not the last takes at least one
byte, unless it holds the whole buffer back; then the next turn is the same
turn again, and the call never returns (`none`). -/
def compressStreamFeed (ctx : StreamCtx) (chunk : List Char) : Option StreamCtx :=
  if chunk = [] then some ctx
  else
    (feedLoop (ctx.pending.length + chunk.length + 1) ctx.pending chunk).map fun r =>
      { pending := r.2
        out := ctx.out ++ r.1
        totalIn := ctx.totalIn + chunk.length
        totalOut := ctx.totalOut + r.1.length }

/-! ## §3. Flush. -/

/-- One turn of `compress_stream_flush`, which does not collapse white space. -/
def flushStep : List Char → List Char × List Char
  | [] => ([], [])
  | c :: rest =>
    if isPlaceholderStart (c :: rest) then
      (emitToken ((c :: rest).take (placeholderLen (c :: rest))),
        (c :: rest).drop (placeholderLen (c :: rest)))
    else if isSpace c then ([c], rest)
    else if isLetter c then
      (emitToken ((c :: rest).takeWhile isAlnum), (c :: rest).dropWhile isAlnum)
    else ([c], rest)

/-- The loop of the flush. -/
def flushLoop : Nat → List Char → List Char
  | 0, _ => []
  | _ + 1, [] => []
  | fuel + 1, s => (flushStep s).1 ++ flushLoop fuel (flushStep s).2

/-- `compress_stream_flush`. -/
def compressStreamFlush (ctx : StreamCtx) : StreamCtx :=
  let w := flushLoop ctx.pending.length ctx.pending
  { ctx with pending := [], out := ctx.out ++ w, totalOut := ctx.totalOut + w.length }

/-! ## §4. A whole run. -/

/-- Init, feed each chunk, flush: what has been written at the end. -/
def streamed (chunks : List (List Char)) : Option (List Char) :=
  (chunks.foldlM compressStreamFeed compressStreamInit).map fun ctx => (compressStreamFlush ctx).out

/-! One equation for each kind of token. -/

theorem ne_dollar_of_isSpace {c : Char} (h : isSpace c) : c ≠ '$' := by
  rintro rfl
  cases h

theorem ne_dollar_of_isLetter {c : Char} (h : isLetter c) : c ≠ '$' := by
  rintro rfl
  cases h

theorem isSpace_of_isLetter {c : Char} (h : isLetter c) : isSpace c = false := by
  cases hs : isSpace c with
  | false => rfl
  | true =>
    have halnum := isAlnum_of_isSpace hs
    rw [isAlnum, h] at halnum
    cases halnum

theorem feedStep_placeholder {s : List Char} (h : isPlaceholderStart s) : feedStep false s
      = some (emitToken (s.take (placeholderLen s)), s.drop (placeholderLen s)) := by
  unfold feedStep
  rw [if_pos h, Bool.and_false]
  rfl

theorem feedStep_space {c : Char} (h : isSpace c) (more : Bool) (s : List Char) :
    feedStep more (c :: s)
      = some ([collapsed ((c :: s).takeWhile isSpace)], (c :: s).dropWhile isSpace) := by
  unfold feedStep
  rw [isPlaceholderStart_other (ne_dollar_of_isSpace h)]
  exact if_pos h

theorem feedStep_word {c : Char} (h : isLetter c) (more : Bool) (s : List Char) :
    feedStep more (c :: s)
      = if ((c :: s).takeWhile isAlnum).length ≥ (c :: s).length && more then none
        else some (emitToken ((c :: s).takeWhile isAlnum), (c :: s).dropWhile isAlnum) := by
  unfold feedStep
  rw [isPlaceholderStart_other (ne_dollar_of_isLetter h), if_neg (by decide)]
  exact (if_neg (by rw [isSpace_of_isLetter h]; decide)).trans (if_pos h)

theorem feedStep_other {c : Char} {s : List Char} (hplace : isPlaceholderStart (c :: s) = false)
    (hspace : isSpace c = false) (hletter : isLetter c = false) (more : Bool) :
    feedStep more (c :: s) = some ([c], s) := by
  unfold feedStep
  rw [hplace, if_neg (by decide)]
  exact (if_neg (by rw [hspace]; decide)).trans (if_neg (by rw [hletter]; decide))

/-- **A word that fills the buffer is held back for ever** when a byte follows:
no number of turns ends the call. -/
theorem feedLoop_hangs {w rest : List Char} (hw : ∀ c ∈ w, isLetter c)
    (hlen : w.length = streamBufSize - 1) (hrest : rest ≠ []) :
    ∀ (fuel : Nat) (pending more : List Char), pending ++ more = w →
      feedLoop fuel pending (more ++ rest) = none := by
  have hwhole : w.takeWhile isAlnum = w := by
    refine List.takeWhile_eq_self_iff.mpr fun c hc => ?_
    rw [isAlnum, hw c hc]
    rfl
  -- nothing of the buffer is written
  have hhold : drain true w.length w = ([], w) := by
    cases w with
    | nil => rfl
    | cons c rest =>
      have hstep : feedStep true (c :: rest) = none := by
        rw [feedStep_word (hw c List.mem_cons_self), hwhole]
        exact if_pos (by rw [decide_eq_true (Nat.le_refl _)]; rfl)
      rw [List.length_cons, drain, hstep]
  intro fuel
  induction fuel with
  | zero => intro pending more _; rfl
  | succ fuel ih =>
    intro pending more hsplit
    have hroom : streamBufSize - 1 - pending.length = more.length := by
      rw [← hlen, ← hsplit, List.length_append, Nat.add_sub_cancel_left]
    rw [feedLoop, if_neg (by simp [hrest])]
    dsimp only
    rw [hroom, List.take_left, List.drop_left, decide_eq_true hrest, hsplit, hhold, if_neg hrest]
    show (feedLoop fuel w ([] ++ rest)).map _ = none
    rw [ih w [] (List.append_nil w)]
    rfl

/-- A word of 4096 letters, fed to an empty buffer. -/
theorem long_word_hangs : feedLoop 9 [] (List.replicate 4095 'a' ++ ['b']) = none :=
  feedLoop_hangs (fun c hc => by rw [List.eq_of_mem_replicate hc]; rfl) List.length_replicate
    (List.cons_ne_nil _ _) 9 [] _ rfl

end Toke.Compress
