/-
  Toke.Http2.FlowControl — **WHAT THE SERVER SENDS AND WHAT THE PEER ALLOWED.**

  A `Ledger` sums up what the peer sent: the initial window sizes it announced,
  its increments, the data received, and the bodies of the responses it asked
  for.  `Inv` bounds the connection by its ledger, and every turn of the frame
  loop keeps it (`turn_inv`).  No window stops the server from sending, so what
  it sends is bounded by the bodies alone: flow control is respected where the
  bodies themselves fit (`flow_respected`).
-/
import Toke.Http2.Connection

namespace Toke.Http2

open List

/-! ## §1. The ledger. -/

/-- What the peer sent, in sum: `increments` of the streams, `connIncrements` of
the connection. -/
structure Ledger where
  sizes : List Nat
  increments : Nat → Nat
  connIncrements : Nat
  received : Nat
  bodies : Nat → Nat
  allBodies : Nat

/-- The acceptable initial window sizes in a SETTINGS payload. -/
def windowSizes : List UInt8 → List Nat
  | i₀ :: i₁ :: a :: b :: c :: d :: rest =>
    if i₀.toNat * 256 + i₁.toNat = 4 ∧ ofBe32 a b c d ≤ maxWindowSize then
      ofBe32 a b c d :: windowSizes rest
    else windowSizes rest
  | _ => []

/-- `n` more at `id`. -/
def addAt (f : Nat → Nat) (id n : Nat) : Nat → Nat := fun i => if i = id then f i + n else f i

/-- The ledger behind one more frame. -/
def Ledger.after (l : Ledger) (e : Event) : Ledger :=
  match e.frame.type with
  | .settings => { l with sizes := l.sizes ++ windowSizes e.frame.payload }
  | .windowUpdate =>
    if e.frame.streamId = 0 then
      { l with connIncrements := l.connIncrements + incrementOf e.frame.payload }
    else { l with increments := addAt l.increments e.frame.streamId (incrementOf e.frame.payload) }
  | .data => { l with received := l.received + e.frame.length }
  | .headers =>
    { l with
      bodies := addAt l.bodies e.frame.streamId e.response.body.length
      allBodies := l.allBodies + e.response.body.length }
  | _ => l

/-- The ledger of a whole sequence of frames. -/
def ledger (es : List Event) : Ledger :=
  es.foldl Ledger.after ⟨[65535], fun _ => 0, 0, 0, fun _ => 0, 0⟩

theorem ledger_snoc (es : List Event) (e : Event) : ledger (es ++ [e]) = (ledger es).after e := by
  unfold ledger
  rw [foldl_append]
  rfl

/-- The bytes of the DATA frames on one stream. -/
def dataOn (id : Nat) (fs : List Frame) : Nat :=
  (fs.map fun f => if f.type = .data ∧ f.streamId = id then f.length else 0).sum

/-- The bytes of all DATA frames. -/
def dataAll (fs : List Frame) : Nat :=
  (fs.map fun f => if f.type = .data then f.length else 0).sum

/-- More of everything. -/
structure Ledger.Le (l m : Ledger) : Prop where
  sizes : ∀ w ∈ l.sizes, w ∈ m.sizes
  increments : ∀ id, l.increments id ≤ m.increments id
  connIncrements : l.connIncrements ≤ m.connIncrements
  received : l.received ≤ m.received
  bodies : ∀ id, l.bodies id ≤ m.bodies id
  allBodies : l.allBodies ≤ m.allBodies

theorem le_addAt (f : Nat → Nat) (id n i : Nat) : f i ≤ addAt f id n i := by
  unfold addAt
  split <;> omega

theorem Ledger.Le.refl (l : Ledger) : l.Le l :=
  ⟨fun _ hw => hw, fun _ => Nat.le_refl _, Nat.le_refl _, Nat.le_refl _, fun _ => Nat.le_refl _,
    Nat.le_refl _⟩

theorem Ledger.le_after (l : Ledger) (e : Event) : l.Le (l.after e) := by
  unfold Ledger.after
  split
  case h_1 => exact { Le.refl l with sizes := fun _ hw => mem_append_left _ hw }
  case h_2 =>
    split
    · exact { Le.refl l with connIncrements := Nat.le_add_right _ _ }
    · exact { Le.refl l with increments := le_addAt _ _ _ }
  case h_3 => exact { Le.refl l with received := Nat.le_add_right _ _ }
  case h_4 =>
    exact { Le.refl l with bodies := le_addAt _ _ _, allBodies := Nat.le_add_right _ _ }
  case h_5 => exact Le.refl l

/-! ## §2. The invariant. -/

/-- A value that was stored is bounded by the ledger: in a window of the
connection, or in one of a stream. -/
def Ledger.Bounds (l : Ledger) (v : Int) : Prop :=
  -(l.received : Int) ≤ v ∧
    (v ≤ 65535 + (l.connIncrements : Int) ∨ ∃ w ∈ l.sizes, ∃ id, v ≤ (w : Int) + l.increments id)

/-- **The connection is bounded by its ledger.** -/
structure Inv (l : Ledger) (s : Server) : Prop where
  initial : s.conn.peerSettings.initialWindowSize ∈ l.sizes
  windows : ∀ x ∈ s.conn.streams,
    (s.conn.peerSettings.initialWindowSize : Int) - l.received ≤ x.window ∧
    x.window ≤ (s.conn.peerSettings.initialWindowSize : Int) + l.increments x.id
  send : 65535 ≤ s.conn.connWindowSend ∧ s.conn.connWindowSend ≤ 65535 + (l.connIncrements : Int)
  recv : 65535 - (l.received : Int) ≤ s.conn.connWindowRecv ∧ s.conn.connWindowRecv ≤ 65535
  dataOn : ∀ id, dataOn id s.sent ≤ l.bodies id
  dataAll : dataAll s.sent ≤ l.allBodies
  stored : ∀ v ∈ s.stored, l.Bounds v

theorem Inv.mono {l m : Ledger} {s : Server} (h : Inv l s) (hle : l.Le m) : Inv m s where
  initial := hle.sizes _ h.initial
  windows := by
    intro x hx
    have hw := h.windows x hx
    have hi := hle.increments x.id
    have hr := hle.received
    omega
  send := by
    have hs := h.send
    have hi := hle.connIncrements
    omega
  recv := by
    have hv := h.recv
    have hr := hle.received
    omega
  dataOn := fun id => Nat.le_trans (h.dataOn id) (hle.bodies id)
  dataAll := Nat.le_trans h.dataAll hle.allBodies
  stored := by
    intro v hv
    obtain ⟨hlow, hup⟩ := h.stored v hv
    have hr := hle.received
    refine ⟨by omega, ?_⟩
    rcases hup with hup | ⟨w, hw, id, hup⟩
    · have hi := hle.connIncrements
      exact .inl (by omega)
    · have hi := hle.increments id
      exact .inr ⟨w, hle.sizes w hw, id, by omega⟩

/-! ## §3. Steps that keep it. -/

section Steps

variable {l : Ledger} {s : Server}

theorem dataOn_append (id : Nat) (fs gs : List Frame) :
    dataOn id (fs ++ gs) = dataOn id fs + dataOn id gs := by
  unfold dataOn
  rw [map_append, sum_append]

theorem dataAll_append (fs gs : List Frame) : dataAll (fs ++ gs) = dataAll fs + dataAll gs := by
  unfold dataAll
  rw [map_append, sum_append]

theorem mem_updateFirst {id : Nat} {f : H2Stream → H2Stream} {y : H2Stream} :
    ∀ {xs : List H2Stream}, y ∈ updateFirst id f xs → y ∈ xs ∨ ∃ x ∈ xs, x.id = id ∧ y = f x := by
  intro xs
  induction xs with
  | nil => intro hy; cases hy
  | cons x xs ih =>
    intro hy
    unfold updateFirst at hy
    split at hy
    · rename_i hid
      rcases mem_cons.mp hy with rfl | hy
      · exact .inr ⟨x, mem_cons_self, hid, rfl⟩
      · exact .inl (mem_cons_of_mem x hy)
    · rcases mem_cons.mp hy with rfl | hy
      · exact .inl mem_cons_self
      · rcases ih hy with hmem | ⟨z, hz, hid, heq⟩
        · exact .inl (mem_cons_of_mem x hmem)
        · exact .inr ⟨z, mem_cons_of_mem x hz, hid, heq⟩

theorem h2StreamTransition_keeps (x : H2Stream) (type : FrameType) (endStream : Bool) :
    (h2StreamTransition x type endStream).id = x.id ∧
      (h2StreamTransition x type endStream).window = x.window := by
  unfold h2StreamTransition
  repeat' split
  all_goals exact ⟨rfl, rfl⟩

theorem h2StreamGet_peer (s : Server) (id : Nat) :
    (h2StreamGet s id).1.conn.peerSettings = s.conn.peerSettings := by
  unfold h2StreamGet
  split
  · rfl
  · split <;> rfl

theorem h2StreamGet_found {id : Nat} {x : H2Stream} (hx : (h2StreamGet s id).2 = some x) :
    x.id = id ∧
      (x ∈ s.conn.streams ∨ x.window = (s.conn.peerSettings.initialWindowSize : Int)) := by
  unfold h2StreamGet at hx
  split at hx
  · rename_i y hy
    obtain rfl : y = x := Option.some.inj hx
    exact ⟨by simpa using find?_some hy, .inl (mem_of_find?_eq_some hy)⟩
  · split at hx
    · cases hx
    · obtain rfl := Option.some.inj hx
      exact ⟨rfl, .inr rfl⟩

/-- The frames of a body hold at most the body. -/
theorem sendBody_data (streamId maxData : Nat) : ∀ (fuel : Nat) (body : List UInt8),
    (∀ id, dataOn id (sendBody streamId maxData fuel body).1
      ≤ if id = streamId then body.length else 0) ∧
    dataAll (sendBody streamId maxData fuel body).1 ≤ body.length := by
  intro fuel
  induction fuel with
  | zero =>
    intro body
    cases body <;> exact ⟨fun id => Nat.zero_le _, Nat.zero_le _⟩
  | succ fuel ih =>
    intro body
    cases body with
    | nil => exact ⟨fun id => Nat.zero_le _, Nat.zero_le _⟩
    | cons b bs =>
      unfold sendBody
      dsimp only
      generalize b :: bs = rest
      split
      · exact ⟨fun id => Nat.zero_le _, Nat.zero_le _⟩
      · generalize min (rest.length % 2 ^ 32) maxData = chunk
        obtain ⟨hon, hall⟩ := ih (rest.drop chunk)
        have htake : (rest.take chunk).length + (rest.drop chunk).length = rest.length := by
          rw [← length_append, take_append_drop]
        constructor
        · intro id
          have hid := hon id
          simp only [dataOn, map_cons, sum_cons, Frame.length, true_and] at hid ⊢
          by_cases heq : id = streamId
          · rw [if_pos heq] at hid ⊢
            rw [if_pos heq.symm]
            omega
          · rw [if_neg heq] at hid ⊢
            rw [if_neg (Ne.symm heq)]
            omega
        · simp only [dataAll, map_cons, sum_cons, Frame.length, if_true] at hall ⊢
          omega

variable (h : Inv l s)

include h

/-- One more value is stored. -/
theorem Inv.store {v : Int} (hv : l.Bounds v) : ∀ w ∈ s.stored ++ [v], l.Bounds w :=
  forall_mem_append.mpr ⟨h.stored, forall_mem_singleton.mpr hv⟩

/-- Frames other than DATA do not count. -/
theorem Inv.emit {f : Frame} (hf : f.type ≠ .data) : Inv l (s.emit f) :=
  { h with
    dataOn := by
      intro id
      have hzero : Http2.dataOn id [f] = 0 := by simp [Http2.dataOn, hf]
      show Http2.dataOn id (s.sent ++ [f]) ≤ _
      rw [dataOn_append, hzero]
      exact h.dataOn id
    dataAll := by
      have hzero : Http2.dataAll [f] = 0 := by simp [Http2.dataAll, hf]
      show Http2.dataAll (s.sent ++ [f]) ≤ _
      rw [dataAll_append, hzero]
      exact h.dataAll }

/-- A change of the connection that leaves windows and settings alone. -/
theorem Inv.quiet {c : H2Conn}
    (hset : c.peerSettings.initialWindowSize = s.conn.peerSettings.initialWindowSize)
    (hsend : c.connWindowSend = s.conn.connWindowSend)
    (hrecv : c.connWindowRecv = s.conn.connWindowRecv) (hstreams : c.streams = s.conn.streams) :
    Inv l { s with conn := c } where
  initial := by rw [hset]; exact h.initial
  windows := by rw [hset, hstreams]; exact h.windows
  send := by rw [hsend]; exact h.send
  recv := by rw [hrecv]; exact h.recv
  dataOn := h.dataOn
  dataAll := h.dataAll
  stored := h.stored

theorem Inv.goaway (code : ErrorCode) : Inv l (h2SendGoaway s code) := by
  have hmarked : Inv l { s with conn := { s.conn with goawaySent := true } } :=
    h.quiet rfl rfl rfl rfl
  exact hmarked.emit nofun

theorem Inv.rstStream (id : Nat) (code : ErrorCode) :
    Inv l (h2SendRstStream s id code) := h.emit nofun

theorem Inv.windowUpdate (id n : Nat) : Inv l (h2SendWindowUpdate s id n) := by
  unfold h2SendWindowUpdate
  split
  · exact h
  · exact h.emit nofun

theorem Inv.refuse (code : ErrorCode) : Inv l (refuse s code).1 := h.goaway code

theorem Inv.touch (id : Nat) {f : H2Stream → H2Stream}
    (hf : ∀ x, (f x).id = x.id ∧ (f x).window = x.window) : Inv l (s.touch id f) :=
  { h with
    windows := by
      intro y hy
      rcases mem_updateFirst hy with hy | ⟨x, hx, -, rfl⟩
      · exact h.windows y hy
      · rw [(hf x).1, (hf x).2]
        exact h.windows x hx }

theorem Inv.setWindow (x : H2Stream) {v : Int}
    (hlow : (s.conn.peerSettings.initialWindowSize : Int) - l.received ≤ v)
    (hup : v ≤ (s.conn.peerSettings.initialWindowSize : Int) + l.increments x.id) :
    Inv l (s.setWindow x v) :=
  { h with
    windows := by
      intro y hy
      rcases mem_updateFirst hy with hy | ⟨z, hz, hid, rfl⟩
      · exact h.windows y hy
      · refine ⟨hlow, ?_⟩
        show v ≤ _ + (l.increments z.id : Int)
        rw [hid]
        exact hup
    stored := h.store ⟨by omega, .inr ⟨_, h.initial, x.id, hup⟩⟩ }

/-- A slot that exists stays; a new one starts with the initial window. -/
theorem Inv.streamGet (id : Nat) : Inv l (h2StreamGet s id).1 := by
  unfold h2StreamGet
  split
  · exact h
  · split
    · exact h
    · refine { h with windows := ?_, stored := ?_ }
      · intro y hy
        rcases mem_append.mp hy with hy | hy
        · exact h.windows y hy
        · rw [mem_singleton.mp hy]
          show (s.conn.peerSettings.initialWindowSize : Int) - l.received
              ≤ s.conn.peerSettings.initialWindowSize ∧
            (s.conn.peerSettings.initialWindowSize : Int)
              ≤ s.conn.peerSettings.initialWindowSize + (l.increments id : Int)
          omega
      · exact h.store ⟨by dsimp only; omega, .inr ⟨_, h.initial, id, by dsimp only; omega⟩⟩

/-- The window of a slot, old or new, is bounded by the ledger before the frame. -/
theorem Inv.found {t : Server} (hstreams : t.conn.streams = s.conn.streams)
    (hpeer : t.conn.peerSettings = s.conn.peerSettings) (id : Nat) {x : H2Stream}
    (hx : (h2StreamGet t id).2 = some x) :
    x.id = id ∧ (s.conn.peerSettings.initialWindowSize : Int) - l.received ≤ x.window ∧
      x.window ≤ (s.conn.peerSettings.initialWindowSize : Int) + l.increments id := by
  obtain ⟨hid, hold⟩ := h2StreamGet_found hx
  rw [hstreams, hpeer] at hold
  rcases hold with hmem | hnew
  · have hw := h.windows x hmem
    rw [hid] at hw
    exact ⟨hid, hw⟩
  · exact ⟨hid, by omega, by omega⟩

/-- A new initial window size moves all windows alike. -/
theorem Inv.announce {value : Nat} (hv : value ∈ l.sizes) :
    Inv l (s.announce value) := by
  have hwindows : ∀ y ∈ (s.announce value).conn.streams,
      (value : Int) - l.received ≤ y.window ∧ y.window ≤ (value : Int) + l.increments y.id := by
    intro y hy
    obtain ⟨x, hx, rfl⟩ := mem_map.mp hy
    have hw := h.windows x hx
    dsimp only
    omega
  refine { h with initial := hv, windows := hwindows, stored := ?_ }
  intro w hw
  rcases mem_append.mp hw with hw | hw
  · exact h.stored w hw
  · obtain ⟨y, hy, rfl⟩ := mem_map.mp hw
    have hb := hwindows y hy
    exact ⟨by omega, .inr ⟨value, hv, y.id, hb.2⟩⟩

theorem Inv.sendHead (streamId : Nat) (r : Response) :
    Inv l (sendHead s streamId r) := by
  have hencoder : ∀ encoder, Inv l { s with conn := { s.conn with encoder := encoder } } :=
    fun encoder => h.quiet rfl rfl rfl rfl
  unfold Http2.sendHead
  dsimp only
  split
  · exact (hencoder _).emit nofun
  · exact hencoder _

theorem Inv.respond {m : Ledger} (hle : l.Le m) (streamId : Nat) (r : Response)
    (hbodies : l.bodies streamId + r.body.length ≤ m.bodies streamId)
    (hall : l.allBodies + r.body.length ≤ m.allBodies) :
    Inv m (respond s streamId r).1 := by
  have ht := h.sendHead streamId r
  unfold Http2.respond
  generalize Http2.sendHead s streamId r = t at *
  obtain ⟨hon, htotal⟩ := sendBody_data streamId t.conn.peerSettings.maxFrameSize r.body.length
    r.body.bytes
  refine { ht.mono hle with dataOn := ?_, dataAll := ?_ }
  · intro id
    have hid := hon id
    have hold := ht.dataOn id
    have hmono := hle.bodies id
    show Http2.dataOn id (t.sent ++ _) ≤ _
    rw [dataOn_append]
    by_cases heq : id = streamId
    · rw [if_pos heq] at hid
      subst heq
      exact Nat.le_trans (Nat.add_le_add hold hid) hbodies
    · rw [if_neg heq] at hid
      omega
  · show Http2.dataAll (t.sent ++ _) ≤ _
    rw [dataAll_append]
    exact Nat.le_trans (Nat.add_le_add ht.dataAll htotal) hall

end Steps

/-! ## §4. The frames. -/

section Frames

variable {l : Ledger} {s : Server} {e : Event}

/-- The settings of a payload, all of whose window sizes are in the ledger. -/
theorem applySettingsLoop_inv {m : Ledger} : ∀ (n : Nat) (payload : List UInt8) (s : Server),
    payload.length ≤ n → (∀ w ∈ windowSizes payload, w ∈ m.sizes) → Inv m s →
    Inv m (applySettingsLoop s payload).1 := by
  intro n
  induction n with
  | zero =>
    intro payload s hn _ h
    obtain rfl : payload = [] := length_eq_zero_iff.mp (by omega)
    exact h
  | succ n ih =>
    intro payload s hn hsizes h
    match payload, hn, hsizes with
    | i₀ :: i₁ :: a :: b :: c :: d :: rest, hn, hsizes =>
      unfold applySettingsLoop
      unfold windowSizes at hsizes
      have hpeer : ∀ settings : H2Settings,
          settings.initialWindowSize = s.conn.peerSettings.initialWindowSize →
          Inv m (s.setPeer settings) := fun settings heq => h.quiet heq rfl rfl rfl
      have hset : Inv m (applySetting s (i₀.toNat * 256 + i₁.toNat) (ofBe32 a b c d)).1 := by
        unfold applySetting
        split
        · have hq : ∀ settings : H2Settings, ∀ encoder,
              settings.initialWindowSize = s.conn.peerSettings.initialWindowSize →
              Inv m { s.setPeer settings with
                conn := { (s.setPeer settings).conn with encoder := encoder } } :=
            fun settings encoder heq => (hpeer settings heq).quiet rfl rfl rfl rfl
          exact hq _ _ rfl
        · split
          · exact h
          · exact hpeer _ rfl
        · exact hpeer _ rfl
        · rename_i hfour
          split
          · exact h
          · rw [if_pos ⟨hfour, by omega⟩] at hsizes
            exact h.announce (hsizes _ mem_cons_self)
        · split
          · exact h
          · exact hpeer _ rfl
        · exact hpeer _ rfl
        · exact h
      have hrest : ∀ w ∈ windowSizes rest, w ∈ m.sizes := by
        intro w hw
        split at hsizes
        · exact hsizes w (mem_cons_of_mem _ hw)
        · exact hsizes w hw
      generalize applySetting s _ _ = done at *
      obtain ⟨t, ok⟩ := done
      cases ok with
      | false => exact hset
      | true => exact ih rest t (by simp only [length_cons] at hn; omega) hrest hset
    | [], _, _ => exact h
    | [_], _, _ => exact h
    | [_, _], _, _ => exact h
    | [_, _, _], _, _ => exact h
    | [_, _, _, _], _, _ => exact h
    | [_, _, _, _, _], _, _ => exact h

variable (h : Inv l s)

include h

theorem handleHeaders_inv (ht : e.frame.type = .headers) :
    Inv (l.after e) (handleHeaders s e).1 := by
  have hle := l.le_after e
  have hbodies : l.bodies e.frame.streamId + e.response.body.length
      ≤ (l.after e).bodies e.frame.streamId := by simp [Ledger.after, ht, addAt]
  have hall : l.allBodies + e.response.body.length ≤ (l.after e).allBodies := by
    simp [Ledger.after, ht]
  unfold handleHeaders
  dsimp only
  split
  · exact (h.refuse _).mono hle
  · have hcount : Inv l
        { s with conn := { s.conn with totalStreams := s.conn.totalStreams + 1 } } :=
      h.quiet rfl rfl rfl rfl
    split
    · exact (hcount.refuse _).mono hle
    · have hget := hcount.streamGet e.frame.streamId
      generalize h2StreamGet _ e.frame.streamId = got at *
      obtain ⟨t, found⟩ := got
      cases found with
      | none => exact (hget.refuse _).mono hle
      | some x =>
        have hmoved := hget.touch e.frame.streamId fun x =>
          h2StreamTransition_keeps x .headers (e.frame.has flagEndStream)
        dsimp only
        generalize Server.touch t e.frame.streamId _ = t' at *
        cases headerFragment e.frame with
        | none => exact hmoved.mono hle
        | some fragment =>
          dsimp only
          split
          · have hdecoded : ∀ decoder, Inv l
                { t' with conn := { t'.conn with decoder := decoder } } :=
              fun decoder => hmoved.quiet rfl rfl rfl rfl
            have hfreed := fun decoder => (hdecoded decoder).touch e.frame.streamId
              (f := fun x => { x with headerBlock := none }) fun x => ⟨rfl, rfl⟩
            split
            · exact ((hfreed _).rstStream _ _).mono hle
            · exact (hfreed _).respond hle _ _ hbodies hall
          · refine (hmoved.touch e.frame.streamId ?_).mono hle
            exact fun x => ⟨rfl, rfl⟩

theorem handleContinuation_inv : Inv l (handleContinuation s e.frame).1 := by
  unfold handleContinuation
  split
  · exact h.refuse _
  · have hget := h.streamGet e.frame.streamId
    generalize h2StreamGet s e.frame.streamId = got at *
    obtain ⟨t, found⟩ := got
    cases found with
    | none => exact hget.refuse _
    | some x =>
      dsimp only
      split
      · exact hget.refuse _
      · refine hget.touch e.frame.streamId ?_
        exact fun x => ⟨rfl, rfl⟩

theorem handlePing_inv : Inv l (handlePing s e.frame).1 := by
  unfold handlePing
  split
  · exact h.refuse _
  · split
    · exact h
    · exact h.emit nofun

theorem handleRstStream_inv : Inv l (handleRstStream s e.frame).1 := by
  unfold handleRstStream
  split
  · exact h.refuse _
  · have hget := h.streamGet e.frame.streamId
    generalize h2StreamGet s e.frame.streamId = got at *
    obtain ⟨t, found⟩ := got
    cases found with
    | none => exact hget
    | some x =>
      refine hget.touch e.frame.streamId ?_
      exact fun x => ⟨rfl, rfl⟩

/-- A received frame counts on both sides: the ledger grows by its length, and
the windows fall by it. -/
theorem handleData_inv (ht : e.frame.type = .data) :
    Inv (l.after e) (handleData s e.frame).1 := by
  have hle := l.le_after e
  have hreceived : (l.after e).received = l.received + e.frame.length := by
    simp [Ledger.after, ht]
  unfold handleData
  split
  · exact (h.refuse _).mono hle
  · -- the receive window first; the streams are still as the old ledger says
    have hlow := h.recv
    have hrecv : Inv (l.after e) (s.put
        { s.conn with connWindowRecv := s.conn.connWindowRecv - e.frame.length }
        [s.conn.connWindowRecv - e.frame.length]) :=
      { h.mono hle with
        recv := by
          show 65535 - ((l.after e).received : Int) ≤ s.conn.connWindowRecv - e.frame.length ∧
            s.conn.connWindowRecv - e.frame.length ≤ 65535
          omega
        stored := (h.mono hle).store ⟨by omega, .inl (by omega)⟩ }
    have hfound : ∀ x, _ := fun x hx =>
      h.found (t := s.put { s.conn with connWindowRecv := s.conn.connWindowRecv - e.frame.length }
        [s.conn.connWindowRecv - e.frame.length]) rfl rfl e.frame.streamId (x := x) hx
    have hget := hrecv.streamGet e.frame.streamId
    have hpeer := h2StreamGet_peer (s.put
      { s.conn with connWindowRecv := s.conn.connWindowRecv - e.frame.length }
      [s.conn.connWindowRecv - e.frame.length]) e.frame.streamId
    dsimp only
    generalize h2StreamGet _ e.frame.streamId = got at *
    obtain ⟨t, found⟩ := got
    refine ((Inv.windowUpdate ?_ 0 _).windowUpdate _ _)
    cases found with
    | none => exact hget
    | some x =>
      obtain ⟨hid, hfloor, hceil⟩ := hfound x rfl
      have hincs := hle.increments x.id
      have hsize : t.conn.peerSettings.initialWindowSize
          = s.conn.peerSettings.initialWindowSize := congrArg H2Settings.initialWindowSize hpeer
      rw [← hid] at hceil
      have hopen : Inv (l.after e) t := hget
      have hset := hopen.setWindow x (v := x.window - e.frame.length) (by omega) (by omega)
      exact hset.touch e.frame.streamId fun x =>
        h2StreamTransition_keeps x .data (e.frame.has flagEndStream)

/-- An increment likewise. -/
theorem handleWindowUpdate_inv (ht : e.frame.type = .windowUpdate) :
    Inv (l.after e) (handleWindowUpdate s e.frame).1 := by
  have hle := l.le_after e
  unfold handleWindowUpdate
  dsimp only
  split
  · exact (h.refuse _).mono hle
  · split
    · split
      · exact (h.goaway _).mono hle
      · exact (h.rstStream _ _).mono hle
    · split
      · rename_i hzero
        have hsend := h.send
        have hincrement : (l.after e).connIncrements
            = l.connIncrements + incrementOf e.frame.payload := by
          simp [Ledger.after, ht, hzero]
        have hnew : s.conn.connWindowSend + incrementOf e.frame.payload
            ≤ 65535 + ((l.after e).connIncrements : Int) := by omega
        refine { h.mono hle with send := ⟨?_, hnew⟩, stored := ?_ }
        · show 65535 ≤ s.conn.connWindowSend + (incrementOf e.frame.payload : Int)
          omega
        · exact (h.mono hle).store ⟨by omega, .inl hnew⟩
      · rename_i hstream
        have hincrement : (l.after e).increments e.frame.streamId
            = l.increments e.frame.streamId + incrementOf e.frame.payload := by
          simp [Ledger.after, ht, hstream, addAt]
        have hfound : ∀ x, _ := fun x hx => h.found (t := s) rfl rfl e.frame.streamId (x := x) hx
        have hget := (h.mono hle).streamGet e.frame.streamId
        have hpeer := h2StreamGet_peer s e.frame.streamId
        generalize h2StreamGet s e.frame.streamId = got at *
        obtain ⟨t, found⟩ := got
        cases found with
        | none => exact hget
        | some x =>
          obtain ⟨hid, hfloor, hceil⟩ := hfound x rfl
          have hreceived := hle.received
          have hsize : t.conn.peerSettings.initialWindowSize
              = s.conn.peerSettings.initialWindowSize := congrArg H2Settings.initialWindowSize hpeer
          have hopen : Inv (l.after e) t := hget
          exact hopen.setWindow x (by omega) (by rw [hid]; omega)

theorem handleSettings_inv (ht : e.frame.type = .settings) :
    Inv (l.after e) (handleSettings s e.frame).1 := by
  have hle := l.le_after e
  have hsizes : ∀ w ∈ windowSizes e.frame.payload, w ∈ (l.after e).sizes := by
    intro w hw
    simp [Ledger.after, ht, hw]
  unfold handleSettings
  split
  · exact h.mono hle
  · split
    · exact (h.refuse _).mono hle
    · have happlied : Inv (l.after e) (h2ApplySettings s e.frame.payload).1 := by
        unfold h2ApplySettings
        split
        · exact h.mono hle
        · exact applySettingsLoop_inv _ _ s (Nat.le_refl _) hsizes (h.mono hle)
      generalize h2ApplySettings s e.frame.payload = done at *
      obtain ⟨t, ok⟩ := done
      cases ok with
      | false => exact happlied.refuse _
      | true => exact happlied.emit nofun

theorem handleFrame_inv : Inv (l.after e) (handleFrame s e).1 := by
  have hle := l.le_after e
  unfold handleFrame
  split
  · rename_i ht
    exact handleSettings_inv h ht
  · rename_i ht
    exact handleHeaders_inv h ht
  · exact (handleContinuation_inv h).mono hle
  · rename_i ht
    exact handleData_inv h ht
  · exact (handlePing_inv h).mono hle
  · rename_i ht
    exact handleWindowUpdate_inv h ht
  · exact (handleRstStream_inv h).mono hle
  · exact h.mono hle
  · exact (h.refuse _).mono hle
  · exact h.mono hle
  · exact h.mono hle

theorem turn_inv : Inv (l.after e) (turn s e).1 := by
  have hle := l.le_after e
  have hstart : Inv l (if s.conn.peerSettings.maxFrameSize < e.frame.length then
      h2SendGoaway s .frameSize else s) := by
    split
    · exact h.goaway _
    · exact h
  unfold turn
  dsimp only
  generalize (if s.conn.peerSettings.maxFrameSize < e.frame.length then
      h2SendGoaway s .frameSize else s) = t at *
  split
  · exact (hstart.refuse _).mono hle
  · have hdone : Inv (l.after e) (handleFrame t e).1 := handleFrame_inv hstart
    generalize handleFrame t e = done at *
    obtain ⟨u, outcome⟩ := done
    cases outcome <;> exact hdone

end Frames

/-! ## §5. Whole runs. -/

/-- While the connection is open every frame has been received; the frames
received are the first of those on their way, and the invariant holds for their
ledger. -/
theorem serve_inv : ∀ es : List Event,
    ((serve es).outcome = .next → (serve es).received = es) ∧ (serve es).received <+: es ∧
      Inv (ledger (serve es).received) (serve es).server := by
  intro es
  induction es using reverseRecOn with
  | nil =>
    refine ⟨fun _ => rfl, prefix_refl [], ?_⟩
    exact
      { initial := mem_cons_self
        windows := fun x hx => by cases hx
        send := ⟨by decide, by decide⟩
        recv := ⟨by decide, by decide⟩
        dataOn := fun id => Nat.le_refl 0
        dataAll := Nat.le_refl 0
        stored := fun v hv => by cases hv }
  | append_singleton es e ih =>
    have hserve : serve (es ++ [e]) = (serve es).receive e := by
      unfold serve
      rw [foldl_append]
      rfl
    obtain ⟨hopen, hfirst, hinv⟩ := ih
    rw [hserve]
    unfold Run.receive
    split
    · rename_i hnext
      rw [hopen hnext] at hinv ⊢
      rw [ledger_snoc]
      exact ⟨fun _ => rfl, prefix_refl _, turn_inv hinv⟩
    · rename_i hend
      exact ⟨fun hnext => absurd hnext hend, hfirst.trans (prefix_append es [e]), hinv⟩

/-- Flow control is respected: on every stream, on the whole connection, and in
what the windows hold. -/
structure Respects (r : Run) : Prop where
  stream : ∀ id, dataOn id r.server.sent
    ≤ r.server.conn.peerSettings.initialWindowSize + (ledger r.received).increments id
  connection : dataAll r.server.sent ≤ 65535 + (ledger r.received).connIncrements
  windows : ∀ v ∈ r.server.stored, -2 ^ 31 ≤ v ∧ v < 2 ^ 31

/-- The bodies asked for fit into what the peer allows, at every point of the
run and with the window size of that point; and neither the increments nor the
received data exceed what a window counts. -/
structure Fits (es : List Event) : Prop where
  stream : ∀ past, past <+: es → ∀ id, (ledger (serve past).received).bodies id
    ≤ (serve past).server.conn.peerSettings.initialWindowSize
      + (ledger (serve past).received).increments id
  connection : ∀ past, past <+: es → (ledger (serve past).received).allBodies
    ≤ 65535 + (ledger (serve past).received).connIncrements
  credit : ∀ w ∈ (ledger es).sizes, ∀ id, w + (ledger es).increments id < 2 ^ 31
  connCredit : 65535 + (ledger es).connIncrements < 2 ^ 31
  data : (ledger es).received ≤ 2 ^ 31

theorem ledger_le_of_append (past : List Event) : ∀ future : List Event,
    (ledger past).Le (ledger (past ++ future)) := by
  intro future
  induction future using reverseRecOn with
  | nil =>
    rw [append_nil]
    exact Ledger.Le.refl _
  | append_singleton future e ih =>
    have hstep := (ledger (past ++ future)).le_after e
    rw [← append_assoc, ledger_snoc]
    exact ⟨fun w hw => hstep.sizes w (ih.sizes w hw),
      fun id => Nat.le_trans (ih.increments id) (hstep.increments id),
      Nat.le_trans ih.connIncrements hstep.connIncrements,
      Nat.le_trans ih.received hstep.received,
      fun id => Nat.le_trans (ih.bodies id) (hstep.bodies id),
      Nat.le_trans ih.allBodies hstep.allBodies⟩

/-- **Flow control is respected where the bodies fit.**  For every sequence of
frames and responses and every point of the run: if the bodies fit into the
credit at every point, the DATA bytes sent never exceed it. -/
theorem flow_respected (es : List Event) (hfits : Fits es) :
    ∀ past, past <+: es → Respects (serve past) := by
  intro past hpast
  obtain ⟨-, hfirst, hinv⟩ := serve_inv past
  obtain ⟨future, hfuture⟩ := hfirst.trans hpast
  have hle := ledger_le_of_append (serve past).received future
  rw [hfuture] at hle
  constructor
  · intro id
    exact Nat.le_trans (hinv.dataOn id) (hfits.stream past hpast id)
  · exact Nat.le_trans hinv.dataAll (hfits.connection past hpast)
  · intro v hv
    obtain ⟨hlow, hup⟩ := (hinv.mono hle).stored v hv
    have hdata := hfits.data
    rcases hup with hup | ⟨w, hw, id, hup⟩
    · have hcredit := hfits.connCredit
      omega
    · have hcredit := hfits.credit w hw id
      omega

/-- A request whose header block is one indexed field. -/
def request (body : String) : Event :=
  ⟨⟨.headers, flagEndHeaders ||| flagEndStream, 1, [0x82]⟩, ⟨200, .ofText "text/html", .ofText body⟩⟩

theorem request_respected :
    Respects (serve [request "hi"]) ∧ dataOn 1 (serve [request "hi"]).server.sent = 2 := by
  have hledger : ledger [request "hi"] = ⟨[65535], fun _ => 0, 0, 0, addAt (fun _ => 0) 1 2, 2⟩ := by
    show (ledger []).after (request "hi") = _
    unfold Ledger.after
    rfl
  have hcases : ∀ past, past <+: [request "hi"] → past = [] ∨ past = [request "hi"] := by
    intro past hpast
    rcases prefix_cons_iff.mp hpast with rfl | ⟨rest, rfl, hrest⟩
    · exact .inl rfl
    · rw [prefix_nil.mp hrest]
      exact .inr rfl
  have hfits : Fits [request "hi"] := by
    constructor
    · intro past hpast id
      rcases hcases past hpast with rfl | rfl
      · exact Nat.zero_le _
      · have hsize : (serve [request "hi"]).server.conn.peerSettings.initialWindowSize = 65535 := by
          decide +kernel
        rw [hsize, (serve_inv [request "hi"]).1 (by decide +kernel), hledger]
        dsimp only [addAt]
        split <;> omega
    · intro past hpast
      rcases hcases past hpast with rfl | rfl
      · exact Nat.zero_le _
      · decide +kernel
    · intro w hw id
      rw [mem_singleton.mp hw]
      show 65535 + 0 < 2 ^ 31
      omega
    · decide
    · decide
  exact ⟨flow_respected _ hfits _ (prefix_refl _), by decide +kernel⟩

/-- The peer allows nothing on new streams. -/
def closedWindow : Event := ⟨⟨.settings, 0, 0, [0, 4, 0, 0, 0, 0]⟩, ⟨0, .ofText "", .ofText ""⟩⟩

/-- **No window is looked at**: with an initial window of 0 and no increment,
the body is sent all the same. -/
theorem body_sent_without_credit :
    (serve [closedWindow, request "hi"]).server.conn.peerSettings.initialWindowSize = 0 ∧
    (ledger (serve [closedWindow, request "hi"]).received).increments 1 = 0 ∧
    dataOn 1 (serve [closedWindow, request "hi"]).server.sent = 2 := by decide +kernel

end Toke.Http2
