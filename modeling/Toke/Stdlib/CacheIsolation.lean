/-
  Toke.Stdlib.CacheIsolation — **WHOSE RESPONSE THE CACHE SERVES.**

  The key joins its parts by `|` and `=` without escaping them and is cut at
  1023 bytes.  Where the parts hold neither mark and fit, two requests have
  one key exactly when they have one target: method, URI and the varied
  headers (`key_eq_iff`).  `Latest` is carried through a run: an entry is that
  of the latest stored response under its key.
-/
import Toke.Stdlib.Cache
import Toke.Library.Evicting
import Toke.Library.Searching

namespace Toke.Stdlib

open List

/-! ## §1. Keys and targets. -/

/-- The value of a header, if the request has it. -/
def Request.headerValue (r : Request) (name : List UInt8) : Option (List UInt8) :=
  (r.header name).map Prod.snd

/-- Two requests for the same thing: method, URI and the varied headers. -/
structure SameTarget (r r' : Request) : Prop where
  method : r.methodText = r'.methodText
  uri : r.uriText = r'.uriText
  headers : ∀ n ∈ r.varyNames, r.headerValue n = r'.headerValue n

/-- A request whose key can be taken apart again: no part holds a separator,
varied headers are spelled as in the `Vary` value, the whole fits the buffer,
and the `Vary` value is that of the resource. -/
structure KeyOk (varyOf : List UInt8 → List UInt8 → Option (List UInt8)) (r : Request) : Prop where
  vary : r.vary = varyOf r.methodText r.uriText
  method : 124 ∉ r.methodText
  uri : 124 ∉ r.uriText
  headers : ∀ n ∈ r.varyNames, ∀ h, r.header n = some h → h.1 = n ∧ 124 ∉ h.1 ∧ 61 ∉ h.1 ∧ 124 ∉ h.2
  fits : (keyPieces r).flatten.length < 1024

section

variable {varyOf : List UInt8 → List UInt8 → Option (List UInt8)} {r r' : Request}

/-- The condition can be checked. -/
instance : Decidable (KeyOk varyOf r) :=
  decidable_of_iff (r.vary = varyOf r.methodText r.uriText ∧ 124 ∉ r.methodText ∧ 124 ∉ r.uriText ∧
      (∀ n ∈ r.varyNames, ∀ h ∈ r.header n, h.1 = n ∧ 124 ∉ h.1 ∧ 61 ∉ h.1 ∧ 124 ∉ h.2) ∧
      (keyPieces r).flatten.length < 1024)
    ⟨fun ⟨hv, hm, hu, hh, hf⟩ => ⟨hv, hm, hu, hh, hf⟩,
      fun ⟨hv, hm, hu, hh, hf⟩ => ⟨hv, hm, hu, hh, hf⟩⟩

/-- The varied headers that the request has. -/
def Request.varied (r : Request) : List (List UInt8 × List UInt8) := r.varyNames.filterMap r.header

/-- The parts between the bars. -/
def keyParts (r : Request) : List (List UInt8) :=
  r.methodText :: r.uriText :: r.varied.map fun h => h.1 ++ 61 :: h.2

theorem flatten_keyPieces (r : Request) : (keyPieces r).flatten = [124].intercalate (keyParts r) := by
  have hrest : ∀ (s : List UInt8) (hs : List (List UInt8 × List UInt8)),
      s ++ (hs.map headerPiece).flatten = [124].intercalate (s :: hs.map fun h => h.1 ++ 61 :: h.2) := by
    intro s hs
    induction hs generalizing s with
    | nil => simp [intercalate_singleton]
    | cons h hs ih =>
      rw [map_cons, map_cons, intercalate_cons_cons, ← ih]
      simp [headerPiece]
  unfold keyPieces keyParts Request.varied
  rw [intercalate_cons_cons, ← hrest]
  simp

theorem KeyOk.key_eq (h : KeyOk varyOf r) :
    (cacheBuildKey r).text = [124].intercalate (keyParts r) := by
  unfold cacheBuildKey
  rw [(Printing.printAll_fits h.fits).1, flatten_keyPieces]

theorem KeyOk.not_escaped (h : KeyOk varyOf r) : (cacheBuildKey r).escaped = false :=
  (Printing.printAll_fits h.fits).2

theorem mem_varied {h : List UInt8 × List UInt8} :
    h ∈ r.varied ↔ ∃ n ∈ r.varyNames, r.header n = some h := mem_filterMap

theorem KeyOk.bar_not_mem (h : KeyOk varyOf r) : ∀ s ∈ keyParts r, 124 ∉ s := by
  intro s hs
  unfold keyParts at hs
  rw [mem_cons, mem_cons] at hs
  rcases hs with rfl | rfl | hs
  · exact h.method
  · exact h.uri
  · obtain ⟨hd, hhd, rfl⟩ := mem_map.mp hs
    obtain ⟨n, hn, hfind⟩ := mem_varied.mp hhd
    obtain ⟨_, hname, _, hvalue⟩ := h.headers n hn hd hfind
    simp [hname, hvalue]

/-- The names depend on the method and the URI only. -/
theorem KeyOk.varyNames_eq (h : KeyOk varyOf r) (h' : KeyOk varyOf r')
    (hm : r.methodText = r'.methodText) (hu : r.uriText = r'.uriText) : r.varyNames = r'.varyNames := by
  have hvary : r.vary = r'.vary := by rw [h.vary, h'.vary, hm, hu]
  unfold Request.varyNames
  rw [hvary]

/-- A varied header of one request is one of the other. -/
theorem header_of_parts (h : KeyOk varyOf r) (h' : KeyOk varyOf r')
    (hparts : keyParts r = keyParts r') {n : List UInt8} (hn : n ∈ r.varyNames)
    {hd : List UInt8 × List UInt8} (hfind : r.header n = some hd) :
    r'.headerValue n = some hd.2 := by
  obtain ⟨_, hparts⟩ := cons.inj hparts
  obtain ⟨_, hparts⟩ := cons.inj hparts
  obtain ⟨hname, _, heq, _⟩ := h.headers n hn hd hfind
  have hmem : hd.1 ++ 61 :: hd.2 ∈ r'.varied.map fun h => h.1 ++ 61 :: h.2 := by
    rw [← hparts]
    exact mem_map_of_mem (mem_varied.mpr ⟨n, hn, hfind⟩)
  obtain ⟨hd', hvar', hpiece⟩ := mem_map.mp hmem
  obtain ⟨n', hn', hfind'⟩ := mem_varied.mp hvar'
  obtain ⟨hname', _, heq', _⟩ := h'.headers n' hn' hd' hfind'
  -- the part has one name: the text before its first `=`
  have hsame : hd'.1 = hd.1 := ((Searching.delimited_iff heq' heq).mp (by rw [hpiece])).1
  rw [hsame] at hpiece
  have hvalue : hd'.2 = hd.2 := (cons.inj (append_cancel_left hpiece)).2
  have hnn : n' = n := by rw [← hname', hsame, hname]
  unfold Request.headerValue
  rw [← hnn, hfind', Option.map_some, hvalue]

/-- **Two requests have one key exactly when they have one target.** -/
theorem key_eq_iff (h : KeyOk varyOf r) (h' : KeyOk varyOf r') :
    (cacheBuildKey r).text = (cacheBuildKey r').text ↔ SameTarget r r' := by
  rw [h.key_eq, h'.key_eq]
  constructor
  · intro heq
    have hsplit := congrArg (splitOn 124) heq
    rw [splitOn_intercalate 124 h.bar_not_mem (cons_ne_nil _ _),
      splitOn_intercalate 124 h'.bar_not_mem (cons_ne_nil _ _)] at hsplit
    have hm : r.methodText = r'.methodText := (cons.inj hsplit).1
    have hu : r.uriText = r'.uriText := (cons.inj (cons.inj hsplit).2).1
    refine ⟨hm, hu, fun n hn => ?_⟩
    cases hfind : r.header n with
    | some hd =>
      rw [header_of_parts h h' hsplit hn hfind, Request.headerValue, hfind, Option.map_some]
    | none =>
      cases hfind' : r'.header n with
      | none => rw [Request.headerValue, Request.headerValue, hfind, hfind']
      | some hd' =>
        have hn' : n ∈ r'.varyNames := h.varyNames_eq h' hm hu ▸ hn
        have hback := header_of_parts h' h hsplit.symm hn' hfind'
        rw [Request.headerValue, hfind] at hback
        cases hback
  · intro htarget
    have hnames := h.varyNames_eq h' htarget.method htarget.uri
    have hvaried : r.varied = r'.varied := by
      unfold Request.varied
      rw [← hnames]
      refine filterMap_congr fun n hn => ?_
      have hvalue := htarget.headers n hn
      unfold Request.headerValue at hvalue
      cases hfind : r.header n with
      | none =>
        rw [hfind] at hvalue
        exact (Option.map_eq_none_iff.mp hvalue.symm).symm
      | some hd =>
        rw [hfind] at hvalue
        obtain ⟨hd', hfind', hsnd⟩ := Option.map_eq_some_iff.mp hvalue.symm
        have hname := (h.headers n hn hd hfind).1
        have hname' := (h'.headers n (hnames ▸ hn) hd' hfind').1
        rw [hfind', Option.some_inj]
        exact Prod.ext (hname.trans hname'.symm) hsnd.symm
    unfold keyParts
    rw [htarget.method, htarget.uri, hvaried]

end

/-! ## §2. One call. -/

/-- The key under which a call stores something, if it does. -/
def CacheCall.stores : CacheCall → Option (List UInt8)
  | .get _ _ => none
  | .put _ r resp => if storable r resp then some (cacheBuildKey r).text else none

/-- The entry is that of the latest response stored under its key. -/
def Latest (cs : List CacheCall) (e : CacheEntry) : Prop :=
  ∃ xs now r resp ys, cs = xs ++ .put now r resp :: ys ∧ (cacheBuildKey r).text = e.key ∧
    resp.body = e.body ∧ ∀ call ∈ ys, call.stores ≠ some e.key

/-- What holds between calls: one entry for each key, each the latest. -/
structure CacheInv (c : HttpCache) (cs : List CacheCall) : Prop where
  keys : (c.entries.map CacheEntry.key).Nodup
  latest : ∀ e ∈ c.entries, Latest cs e

section

variable {c : HttpCache} {cs : List CacheCall}

/-- A call that stores nothing under the key does not outdate the entry. -/
theorem Latest.snoc {e : CacheEntry} (h : Latest cs e) {call : CacheCall}
    (hcall : call.stores ≠ some e.key) : Latest (cs ++ [call]) e := by
  obtain ⟨xs, now, r, resp, ys, rfl, hkey, hbody, hlater⟩ := h
  refine ⟨xs, now, r, resp, ys ++ [call], by simp, hkey, hbody, fun other hother => ?_⟩
  rcases mem_append.mp hother with hold | hnew
  · exact hlater other hold
  · rw [mem_singleton.mp hnew]
    exact hcall

theorem CacheInv.mono {es : List CacheEntry} (h : CacheInv c cs) (hsub : es.Sublist c.entries)
    (maxEntries maxSize : Nat) : CacheInv ⟨es, maxEntries, maxSize⟩ cs :=
  ⟨h.keys.sublist (hsub.map _), fun e he => h.latest e (hsub.subset he)⟩

theorem cacheEvict_sublist (maxEntries maxSize fuel : Nat) : ∀ es : List CacheEntry,
    (cacheEvict maxEntries maxSize fuel es).Sublist es := by
  induction fuel with
  | zero => exact fun es => List.Sublist.refl es
  | succ fuel ih =>
    intro es
    unfold cacheEvict
    split
    · exact (ih es.dropLast).trans (dropLast_sublist es)
    · exact List.Sublist.refl es

/-- Looking up moves an entry but changes none. -/
theorem httpCacheGet_perm (c : HttpCache) (now : Int) (r : Request) :
    (httpCacheGet c now r).1.entries.Perm c.entries := by
  unfold httpCacheGet
  cases hfind : cacheFind c.entries (cacheBuildKey r).text with
  | none => exact List.Perm.refl _
  | some e =>
    show (if _ then _ else _ : HttpCache × Lookup).1.entries.Perm c.entries
    split
    · exact (perm_cons_erase (mem_of_find?_eq_some hfind)).symm
    · exact List.Perm.refl _

/-- What is left after the old entry of the key is removed. -/
def withoutKey (es : List CacheEntry) (key : List UInt8) : List CacheEntry :=
  match cacheFind es key with
  | some e => es.erase e
  | none => es

theorem key_of_cacheFind {es : List CacheEntry} {key : List UInt8} {e : CacheEntry}
    (h : cacheFind es key = some e) : e.key = key := by
  simpa using find?_some h

theorem withoutKey_sublist (es : List CacheEntry) (key : List UInt8) :
    (withoutKey es key).Sublist es := by
  unfold withoutKey
  cases cacheFind es key with
  | none => exact List.Sublist.refl es
  | some e => exact erase_sublist

/-- The one entry of a key is gone after it is removed. -/
theorem key_ne_of_mem_withoutKey {es : List CacheEntry} (hnodup : (es.map CacheEntry.key).Nodup)
    (key : List UInt8) : ∀ e ∈ withoutKey es key, e.key ≠ key := by
  intro e he
  unfold withoutKey at he
  cases hfind : cacheFind es key with
  | none =>
    rw [hfind] at he
    exact of_decide_eq_false (by simpa using find?_eq_none.mp hfind e he)
  | some e' =>
    rw [hfind] at he
    have hmem' := mem_of_find?_eq_some hfind
    have hkey' : e'.key = key := key_of_cacheFind hfind
    have hes : es.Nodup := hnodup.of_map
    have hne : e ≠ e' := ((hes.mem_erase_iff).mp he).1
    intro heq
    exact hne (inj_on_of_nodup_map hnodup ((hes.mem_erase_iff).mp he).2 hmem'
      (heq.trans hkey'.symm))

theorem stores_put {now : Int} {r : Request} {resp : Response} (h : storable r resp) :
    (CacheCall.put now r resp).stores = some (cacheBuildKey r).text := by
  rw [CacheCall.stores, if_pos h]

/-- **One call keeps the invariant.** -/
theorem CacheInv.step (h : CacheInv c cs) (call : CacheCall) :
    CacheInv (cacheStep c call) (cs ++ [call]) := by
  cases call with
  | get now r =>
    have hperm := httpCacheGet_perm c now r
    refine ⟨(hperm.map _).nodup_iff.mpr h.keys, fun e he => ?_⟩
    exact (h.latest e (hperm.mem_iff.mp he)).snoc (fun hno => by cases hno)
  | put now r resp =>
    by_cases hstore : storable r resp
    · have hinv : CacheInv ⟨⟨(cacheBuildKey r).text, resp.status, resp.body, resp.etag,
          resp.contentType, now, ttlOf (cacheControlParse resp.cacheControl)⟩ ::
            withoutKey c.entries (cacheBuildKey r).text, c.maxEntries, c.maxSize⟩
          (cs ++ [.put now r resp]) := by
        have hfresh := key_ne_of_mem_withoutKey h.keys (cacheBuildKey r).text
        have hsub := withoutKey_sublist c.entries (cacheBuildKey r).text
        refine ⟨?_, fun e he => ?_⟩
        · rw [map_cons, nodup_cons]
          refine ⟨fun hmem => ?_, h.keys.sublist (hsub.map _)⟩
          obtain ⟨e, he, hkey⟩ := mem_map.mp hmem
          exact hfresh e he hkey
        · rcases mem_cons.mp he with rfl | hold
          · exact ⟨cs, now, r, resp, [], rfl, rfl, rfl, fun _ hno => absurd hno not_mem_nil⟩
          · refine (h.latest e (hsub.subset hold)).snoc ?_
            rw [stores_put hstore]
            intro heq
            injection heq with heq
            exact hfresh e hold heq.symm
      have hstep : cacheStep c (.put now r resp) = ⟨cacheEvict c.maxEntries c.maxSize
          ((withoutKey c.entries (cacheBuildKey r).text).length + 1)
          (⟨(cacheBuildKey r).text, resp.status, resp.body, resp.etag, resp.contentType, now,
            ttlOf (cacheControlParse resp.cacheControl)⟩ ::
            withoutKey c.entries (cacheBuildKey r).text), c.maxEntries, c.maxSize⟩ := by
        simp only [cacheStep, httpCachePut, if_pos hstore]
        rfl
      rw [hstep]
      exact hinv.mono (cacheEvict_sublist _ _ _ _) _ _
    · have hsame : cacheStep c (.put now r resp) = c := by
        simp only [cacheStep, httpCachePut, if_neg hstore]
      rw [hsame]
      refine ⟨h.keys, fun e he => (h.latest e he).snoc ?_⟩
      rw [CacheCall.stores, if_neg hstore]
      exact fun hno => by cases hno

end

/-! ## §3. Runs. -/

/-- The invariant holds after every sequence of calls. -/
theorem cacheRun_inv (maxEntries maxSize : Nat) (cs : List CacheCall) :
    CacheInv (cacheRun maxEntries maxSize cs) cs := by
  induction cs using reverseRecOn with
  | nil => exact ⟨nodup_nil, fun e he => absurd he not_mem_nil⟩
  | append_singleton cs call ih =>
    unfold cacheRun at ih ⊢
    rw [foldl_append, foldl_cons]
    exact ih.step call

/-- A hit serves an entry of the cache with the key of the request. -/
theorem hit_entry {c c' : HttpCache} {now : Int} {r : Request} {e : CacheEntry}
    (h : httpCacheGet c now r = (c', .hit e)) : e ∈ c.entries ∧ e.key = (cacheBuildKey r).text := by
  unfold httpCacheGet at h
  cases hfind : cacheFind c.entries (cacheBuildKey r).text with
  | none =>
    rw [hfind] at h
    cases (Prod.mk.inj h).2
  | some e' =>
    rw [hfind] at h
    simp only at h
    split at h
    · have heq := (Prod.mk.inj h).2
      cases heq
      exact ⟨mem_of_find?_eq_some hfind, key_of_cacheFind hfind⟩
    · cases (Prod.mk.inj h).2

/-- A call with a key that can be taken apart, and a response that may be stored. -/
structure CallOk (varyOf : List UInt8 → List UInt8 → Option (List UInt8)) (call : CacheCall) :
    Prop where
  key : KeyOk varyOf call.request
  stored : ∀ now r resp, call = .put now r resp → storable r resp = true

instance (varyOf : List UInt8 → List UInt8 → Option (List UInt8)) (call : CacheCall) :
    Decidable (CallOk varyOf call) :=
  match call with
  | .get _ r =>
    decidable_of_iff (KeyOk varyOf r)
      ⟨fun h => ⟨h, fun _ _ _ hno => by cases hno⟩, fun h => h.key⟩
  | .put _ r resp =>
    decidable_of_iff (KeyOk varyOf r ∧ storable r resp = true)
      ⟨fun h => ⟨h.1, fun _ _ _ heq => by cases heq; exact h.2⟩,
        fun h => ⟨h.key, h.stored _ _ _ rfl⟩⟩

/-- **A hit serves the latest response to a request with the same target**, if
every call is in order; and then no key is written outside its buffer. -/
theorem hit_is_latest (varyOf : List UInt8 → List UInt8 → Option (List UInt8))
    (maxEntries maxSize : Nat) (cs : List CacheCall) (now : Int) (r : Request)
    (hok : ∀ call ∈ cs ++ [.get now r], CallOk varyOf call) :
    (∀ call ∈ cs ++ [.get now r], (cacheBuildKey call.request).escaped = false) ∧
    ∀ c' e, httpCacheGet (cacheRun maxEntries maxSize cs) now r = (c', .hit e) →
      ∃ xs now' r' resp ys, cs = xs ++ .put now' r' resp :: ys ∧ SameTarget r r' ∧
        e.body = resp.body ∧
        ∀ now'' r'' resp'', .put now'' r'' resp'' ∈ ys → ¬ SameTarget r r'' := by
  refine ⟨fun call hcall => (hok call hcall).key.not_escaped, fun c' e hhit => ?_⟩
  have hr : KeyOk varyOf r := (hok (.get now r) (by simp)).key
  obtain ⟨hmem, hkey⟩ := hit_entry hhit
  obtain ⟨xs, now', r', resp, ys, hcs, hkey', hbody, hlater⟩ :=
    (cacheRun_inv maxEntries maxSize cs).latest e hmem
  have hr' : KeyOk varyOf r' := (hok (.put now' r' resp) (by simp [hcs])).key
  refine ⟨xs, now', r', resp, ys, hcs, (key_eq_iff hr hr').mp (hkey.symm.trans hkey'.symm),
    hbody.symm, fun now'' r'' resp'' hput hsame => ?_⟩
  -- a later response to the same target would have been stored under the key
  have hcall := hok (.put now'' r'' resp'') (by simp [hcs, hput])
  have hr'' : KeyOk varyOf r'' := hcall.key
  refine hlater _ hput ?_
  rw [stores_put (hcall.stored now'' r'' resp'' rfl), hkey, (key_eq_iff hr hr'').mpr hsame]

/-- A response without headers. -/
def plainResponse (body : String) : Response := ⟨200, ascii body, none, none, none⟩

/-- A URI that imitates a varied header. -/
def imitatingRequest : Request := ⟨some (ascii "GET"), some (ascii "/a|Accept=b"), none, []⟩

/-- A request with a header that is varied on. -/
def variedRequest : Request :=
  ⟨some (ascii "GET"), some (ascii "/a"), some (ascii "Accept"), [(ascii "Accept", ascii "b")]⟩

/-- A URI longer than the buffer, and a varied header behind it. -/
def longRequest : Request :=
  ⟨some (ascii "GET"), some (List.replicate 1100 97), some (ascii "Accept"),
    [(ascii "Accept", ascii "b")]⟩

/-- **The response to one URI is served for another**, and a long URI makes the
next piece of the key land outside the buffer. -/
theorem imitated_key_served : imitatingRequest.uriText ≠ variedRequest.uriText ∧
    (httpCacheGet (cacheRun 10 1000 [.put 0 imitatingRequest (plainResponse "one")]) 1
      variedRequest).2 = .hit ⟨ascii "GET|/a|Accept=b", 200, ascii "one", none, none, 0, 60⟩ ∧
    (cacheBuildKey longRequest).escaped = true := by decide +kernel

/-- Two resources and two languages of one of them. -/
def sampleRun : List CacheCall :=
  [.put 0 ⟨none, some (ascii "/a"), some (ascii "lang"), [(ascii "lang", ascii "de")]⟩
      (plainResponse "eins"),
    .put 1 ⟨none, some (ascii "/a"), some (ascii "lang"), [(ascii "lang", ascii "en")]⟩
      (plainResponse "one"),
    .put 2 ⟨none, some (ascii "/b"), none, []⟩ (plainResponse "two")]

/-- A request with one header. -/
def sampleRequest : Request :=
  ⟨none, some (ascii "/a"), some (ascii "lang"), [(ascii "lang", ascii "de")]⟩

/-- What the server varies on. -/
def sampleVary (_method uri : List UInt8) : Option (List UInt8) :=
  if uri = ascii "/a" then some (ascii "lang") else none

theorem hit_is_latest_sample : (httpCacheGet (cacheRun 10 1000 sampleRun) 5 sampleRequest).2 =
      .hit ⟨ascii "GET|/a|lang=de", 200, ascii "eins", none, none, 0, 60⟩ ∧
    ∀ call ∈ sampleRun ++ [.get 5 sampleRequest], (cacheBuildKey call.request).escaped = false := by
  have hok : ∀ call ∈ sampleRun ++ [.get 5 sampleRequest], CallOk sampleVary call := by
    decide +kernel
  exact ⟨by decide +kernel, (hit_is_latest sampleVary 10 1000 sampleRun 5 sampleRequest hok).1⟩

/-! ## §4. What is evicted. -/

/-- The key a call uses: that of what it stores, or of the entry it is served. -/
def CacheCall.uses (c : HttpCache) : CacheCall → Option (List UInt8)
  | .get now r =>
    match (httpCacheGet c now r).2 with
    | .hit e => some e.key
    | _ => none
  | call => call.stores

/-- The keys used in a run, evicted or not, the latest use in front. -/
def recency (c : HttpCache) (ks : List (List UInt8)) : List CacheCall → List (List UInt8)
  | [] => ks
  | call :: cs =>
    recency (cacheStep c call) ((call.uses c).elim ks fun k => k :: ks.filter (· ≠ k)) cs

/-- What a cache of at most `n` entries and `m` bytes should do: a response is
stored in front, in place of an older one of its key, and of the others the
first ones stay, as many as both limits allow; an entry that is served moves to
the front. -/
def lruStep (n m : Nat) (es : List CacheEntry) : CacheCall → List CacheEntry
  | .get now r =>
    match es.find? fun e => e.key = (cacheBuildKey r).text with
    | some e => if now - e.inserted ≤ e.ttl then e :: es.filter (·.key ≠ e.key) else es
    | none => es
  | .put now r resp =>
    if storable r resp then
      let key := (cacheBuildKey r).text
      let new : CacheEntry := ⟨key, resp.status, resp.body, resp.etag, resp.contentType, now,
        ttlOf (cacheControlParse resp.cacheControl)⟩
      (Evicting.front (·.body.length) m (new :: es.filter (·.key ≠ key))).take n
    else es

/-- The keys in the cache are those used last, and both limits are met. -/
structure Ordered (n m : Nat) (es : List CacheEntry) (ks : List (List UInt8)) : Prop where
  nodup : ks.Nodup
  latest : es.map CacheEntry.key <+: ks
  limits : es.length ≤ n ∧ (es.map (·.body.length)).sum ≤ m

section

variable {n m : Nat} {es : List CacheEntry} {ks : List (List UInt8)}

/-- With one entry of a key, removing it leaves those of the other keys. -/
theorem withoutKey_eq (h : (es.map CacheEntry.key).Nodup) (key : List UInt8) :
    withoutKey es key = es.filter (·.key ≠ key) := by
  have hne := key_ne_of_mem_withoutKey h key
  unfold withoutKey at hne ⊢
  cases hfind : cacheFind es key with
  | none =>
    simp only [hfind] at hne
    exact (filter_eq_self.mpr fun e he => decide_eq_true (hne e he)).symm
  | some e =>
    simp only [hfind, h.of_map.mem_erase_iff] at hne
    dsimp only
    rw [h.of_map.erase_eq_filter]
    refine filter_congr fun x hx => ?_
    by_cases hxe : x = e
    · simp [hxe, key_of_cacheFind hfind]
    · simp [hxe, hne x ⟨hxe, hx⟩]

/-- **Eviction stops when the limits are met**: it leaves as many entries as
both of them allow. -/
theorem cacheEvict_eq (n m fuel : Nat) : ∀ es : List CacheEntry, es.length ≤ fuel →
    cacheEvict n m fuel es = (Evicting.front (·.body.length) m es).take n := by
  induction fuel with
  | zero =>
    intro es hes
    obtain rfl := length_eq_zero_iff.mp (Nat.le_zero.mp hes)
    exact take_nil.symm
  | succ fuel ih =>
    intro es hes
    unfold cacheEvict
    have hdrop := ih es.dropLast (by rw [length_dropLast]; omega)
    by_cases hsize : m < (es.map (·.body.length)).sum
    · have hne : es ≠ [] := fun h => absurd hsize (by simp [h])
      rw [if_pos ⟨hne, .inr hsize⟩, hdrop, Evicting.front_dropLast hsize]
    · -- the bytes fit, so only the number of entries can be too large
      have hall : Evicting.front (·.body.length) m es = es := Evicting.front_all (Nat.not_lt.mp hsize)
      by_cases hcount : n < es.length
      · have hpart : ((es.dropLast).map (·.body.length)).sum ≤ m :=
          (((dropLast_sublist es).map _).sum_le_sum fun _ _ => Nat.zero_le _).trans
            (Nat.not_lt.mp hsize)
        have hne : es ≠ [] := fun h => absurd hcount (by simp [h])
        rw [if_pos ⟨hne, .inl hcount⟩, hdrop, Evicting.front_all hpart, hall, dropLast_eq_take,
          take_take, Nat.min_eq_left (by omega)]
      · rw [if_neg (by omega), hall, take_of_length_le (by omega)]

/-- What is left is within the limits. -/
theorem front_limits (n m : Nat) (es : List CacheEntry) :
    ((Evicting.front (·.body.length) m es).take n).length ≤ n ∧
      (((Evicting.front (·.body.length) m es).take n).map (·.body.length)).sum ≤ m := by
  refine ⟨length_take_le n _, ?_⟩
  exact (((take_sublist n _).map _).sum_le_sum fun _ _ => Nat.zero_le _).trans
    (Evicting.total_front_le m es)

theorem front_take_begins (n m : Nat) (es : List CacheEntry) :
    (Evicting.front (·.body.length) m es).take n <+: es := by
  have htake := take_prefix n (Evicting.front (·.body.length) m es)
  exact htake.trans (Evicting.front_begins m es)

/-- A key in use moves to the front of both lists. -/
theorem Ordered.front (h : Ordered n m es ks) (k : List UInt8) : (k :: ks.filter (· ≠ k)).Nodup ∧
    k :: (es.filter (·.key ≠ k)).map CacheEntry.key <+: k :: ks.filter (· ≠ k) := by
  have hkeys : (es.filter (·.key ≠ k)).map CacheEntry.key = (es.map CacheEntry.key).filter (· ≠ k) := by
    rw [filter_map]
    rfl
  rw [hkeys]
  exact ⟨nodup_cons.mpr ⟨by simp, h.nodup.filter _⟩, (prefix_cons_inj k).mpr (h.latest.filter _)⟩

/-- **One call does what it should**, and keeps the order of use. -/
theorem Ordered.step (h : Ordered n m es ks) (call : CacheCall) :
    cacheStep ⟨es, n, m⟩ call = ⟨lruStep n m es call, n, m⟩ ∧
      Ordered n m (lruStep n m es call)
        ((call.uses ⟨es, n, m⟩).elim ks fun k => k :: ks.filter (· ≠ k)) := by
  have hkeys := h.nodup.sublist h.latest.sublist
  cases call with
  | get now r =>
    unfold cacheStep CacheCall.uses httpCacheGet lruStep
    change _ ∧ Ordered n m (match cacheFind es (cacheBuildKey r).text with
      | some e => _
      | none => es) _
    change _ = HttpCache.mk (match cacheFind es (cacheBuildKey r).text with
      | some e => _
      | none => es) n m ∧ _
    cases hfind : cacheFind es (cacheBuildKey r).text with
    | none =>
      simp only [hfind]
      exact ⟨trivial, h⟩
    | some e =>
      by_cases hfresh : now - e.inserted ≤ e.ttl
      · simp only [hfind, if_pos hfresh]
        have hrest := withoutKey_eq hkeys e.key
        rw [withoutKey, key_of_cacheFind hfind, hfind, ← key_of_cacheFind hfind] at hrest
        have hperm := perm_cons_erase (mem_of_find?_eq_some hfind)
        have hsum := (hperm.map (·.body.length)).sum_eq
        obtain ⟨hnodup, hfront⟩ := h.front e.key
        rw [← hrest] at hfront ⊢
        exact ⟨rfl, hnodup, hfront, hperm.length_eq ▸ h.limits.1, hsum ▸ h.limits.2⟩
      · simp only [hfind, if_neg hfresh]
        exact ⟨trivial, h⟩
  | put now r resp =>
    unfold cacheStep CacheCall.uses CacheCall.stores httpCachePut lruStep
    by_cases hstore : storable r resp
    · simp only [if_pos hstore]
      obtain ⟨hnodup, hfront⟩ := h.front (cacheBuildKey r).text
      have hrest := withoutKey_eq hkeys (cacheBuildKey r).text
      refine ⟨?_, hnodup, ?_, front_limits n m _⟩
      · rw [← hrest, ← cacheEvict_eq n m _ _ (Nat.le_refl _)]
        rfl
      · exact ((front_take_begins n m _).map _).trans hfront
    · simp only [if_neg hstore]
      exact ⟨trivial, h⟩

/-- **So does a run.** -/
theorem Ordered.run (cs : List CacheCall) (h : Ordered n m es ks) :
    (cs.foldl cacheStep ⟨es, n, m⟩).entries = cs.foldl (lruStep n m) es ∧
      Ordered n m (cs.foldl (lruStep n m) es) (recency ⟨es, n, m⟩ ks cs) := by
  induction cs generalizing es ks with
  | nil => exact ⟨rfl, h⟩
  | cons call cs ih =>
    obtain ⟨hstep, hordered⟩ := h.step call
    rw [foldl_cons, foldl_cons, recency, hstep]
    exact ih hordered

end

end Toke.Stdlib
