import Cradle.Core.KeyAgreement
import Cradle.Lib.Transition
import Cradle.Typing.Diff
import Mathlib.Data.Set.Insert

/-!
# The HTTP cache

`secondary_cached_blob` looks a key up in the secondary cache; a value that is not found
is created, and then written.  The HTTP cache keeps the values at a server, in two steps:
a value in the CAS, under its digest, and the digest in the AC, under the key.

The server is shared: `State` has any number of calls, from any number of processes, and
each of their requests is served, or fails, in any order.  A failing request may have been
carried out all the same.  The server may drop an entry at any time, and `accepts` tells
which contents it takes under which URL.

The digest of a value is its unique hash, which covers a tag byte, and for a blob file the
path in place of the bytes.
-/

namespace Cradle.Service.HttpCache

/-! ## Requests and responses -/

inductive CacheName
  | ac
  | cas
  deriving DecidableEq

def CacheName.text : CacheName → List Char
  | ac => ['a', 'c']
  | cas => ['c', 'a', 's']

def makeUrl (port : ℤ) (cacheName : CacheName) (key : Bytes) : Bytes :=
  ascii "http://localhost:".toList ++ ascii (toString port).toList ++ ascii ['/']
    ++ ascii cacheName.text ++ ascii ['/'] ++ key

inductive HttpRequestMethod
  | get
  | put
  deriving DecidableEq

structure HttpRequest where
  method : HttpRequestMethod
  url : Bytes
  headers : List (Bytes × Bytes)
  body : Blob

structure HttpResponse where
  statusCode : ℕ
  body : Blob

/-- What `async_http_request` throws. -/
inductive HttpFailure
  | badHttpStatusCode (statusCode : ℕ)
  | systemError
  deriving DecidableEq

def acceptAll : List (Bytes × Bytes) := [(ascii "Accept".toList, ascii "*/*".toList)]

section
variable (port : ℤ)

def makeCacheGetRequest (cacheName : CacheName) (key : Bytes) : HttpRequest :=
  { method := .get, url := makeUrl port cacheName key, headers := acceptAll, body := .ofBytes [] }

def makeAcGetRequest (acKey : Bytes) : HttpRequest := makeCacheGetRequest port .ac acKey

def makeCasGetRequest (digest : Bytes) : HttpRequest := makeCacheGetRequest port .cas digest

def makeCachePutRequest (cacheName : CacheName) (key : Bytes) (value : Blob) : HttpRequest :=
  { method := .put, url := makeUrl port cacheName key, headers := acceptAll, body := value }

def makeAcPutRequest (key digest : Bytes) : HttpRequest :=
  makeCachePutRequest port .ac key (.ofBytes digest)

def makeCasPutRequest (key : Bytes) (value : Blob) : HttpRequest :=
  makeCachePutRequest port .cas key value

end

/-- `get_blob_via_http`, from what the request gives: 404 means that the value is not in
the cache. -/
def getBlobViaHttp : Except HttpFailure HttpResponse → Except HttpFailure (Option Blob)
  | .ok response => .ok (some response.body)
  | .error (.badHttpStatusCode statusCode) =>
      if statusCode ≠ 404 then .error (.badHttpStatusCode statusCode) else .ok none
  | .error .systemError => .error .systemError

def getStringViaHttp (reply : Except HttpFailure HttpResponse) :
    Except HttpFailure (Option Bytes) :=
  (getBlobViaHttp reply).map (Option.map Blob.data)

def putViaHttp : Except HttpFailure HttpResponse → Except HttpFailure Unit
  | .ok _ => .ok ()
  | .error e => .error e

/-- `get_unique_string_tmpl` of a value. -/
def getUniqueStringTmpl (sha : Bytes → Bytes) (value : Blob) : Bytes :=
  ascii (KeyId.getString (sha value.stream))

/-! ## One call -/

/-- Where a call of `secondary_cached_blob` is: in `read`, in `create_task`, in `write`, or
done. -/
inductive Phase
  | acGet
  | casGet (digest : Bytes)
  | creating
  | casPut (value : Blob)
  | acPut (value : Blob)
  | returned (value : Blob)
  | threw
  deriving DecidableEq

namespace Phase

/-- The request that a call waits for. -/
def request (sha : Bytes → Bytes) (port : ℤ) (key : Bytes) : Phase → Option HttpRequest
  | acGet => some (makeAcGetRequest port key)
  | casGet digest => some (makeCasGetRequest port digest)
  | casPut value => some (makeCasPutRequest port (getUniqueStringTmpl sha value) value)
  | acPut value => some (makeAcPutRequest port key (getUniqueStringTmpl sha value))
  | _ => none

/-- How it goes on. -/
def resume (reply : Except HttpFailure HttpResponse) : Phase → Phase
  | acGet =>
      match getStringViaHttp reply with
      | .ok (some digest) => casGet digest
      | .ok none => creating
      | .error _ => threw
  | casGet _ =>
      match getBlobViaHttp reply with
      | .ok (some value) => returned value
      | .ok none => creating
      | .error _ => threw
  | casPut value =>
      match putViaHttp reply with
      | .ok () => acPut value
      | .error _ => threw
  | acPut value =>
      match putViaHttp reply with
      | .ok () => returned value
      | .error _ => threw
  | phase => phase

end Phase

structure Call where
  key : Bytes
  phase : Phase := .acGet
  deriving DecidableEq

/-! ## The server and its clients -/

/-- The contents that the server has, by URL. -/
abbrev Entries := Bytes → Option Bytes

/-- How a request ends: the server serves it, or it fails on the way. -/
inductive Reaction
  | served
  | failed (carriedOut : Bool) (failure : HttpFailure)
  deriving DecidableEq

structure State where
  entries : Entries := fun _ => none
  calls : List Call := []
  /-- What `create_task` has returned, and for which key. -/
  created : List (Bytes × Blob) := []

inductive Event
  | start (key : Bytes)
  | exchange (i : ℕ) (reaction : Reaction)
  | create (i : ℕ) (value : Option Blob)
  | evict (url : Bytes)
  deriving DecidableEq

section
variable (accepts : Bytes → Bytes → Bool)

def serve (entries : Entries) (request : HttpRequest) : HttpResponse × Entries :=
  match request.method with
  | .get =>
      match entries request.url with
      | some content => ({ statusCode := 200, body := .ofBytes content }, entries)
      | none => ({ statusCode := 404, body := .ofBytes [] }, entries)
  | .put =>
      if accepts request.url request.body.data then
        ({ statusCode := 200, body := .ofBytes [] },
          Function.update entries request.url (some request.body.data))
      else ({ statusCode := 400, body := .ofBytes [] }, entries)

/-- `async_http_request`, at the server and at the client. -/
def asyncHttpRequest (entries : Entries) (request : HttpRequest) :
    Reaction → Except HttpFailure HttpResponse × Entries
  | .served =>
      let (response, entries) := serve accepts entries request
      if response.statusCode / 100 = 2 then (.ok response, entries)
      else (.error (.badHttpStatusCode response.statusCode), entries)
  | .failed carriedOut failure =>
      (.error failure, if carriedOut then (serve accepts entries request).2 else entries)

variable (sha : Bytes → Bytes) (port : ℤ)

def step (s : State) : Event → Option State
  | .start key => some { s with calls := s.calls ++ [{ key }] }
  | .exchange i reaction => do
      let call ← s.calls[i]?
      let request ← call.phase.request sha port call.key
      let (reply, entries) := asyncHttpRequest accepts s.entries request reaction
      some { s with
        entries
        calls := s.calls.set i { call with phase := call.phase.resume reply } }
  | .create i value => do
      let call ← s.calls[i]?
      if call.phase = .creating then
        match value with
        | some value => some { s with
            calls := s.calls.set i { call with phase := .casPut value }
            created := s.created ++ [(call.key, value)] }
        | none => some { s with calls := s.calls.set i { call with phase := .threw } }
      else none
  | .evict url => some { s with entries := Function.update s.entries url none }

end

/-! ## URLs and digests -/

@[simp] theorem makeUrl_inj {port : ℤ} {c c' : CacheName} {k k' : Bytes} :
    makeUrl port c k = makeUrl port c' k' ↔ c = c' ∧ k = k' := by
  simp only [makeUrl, List.append_assoc, List.append_cancel_left_eq]
  cases c <;> cases c' <;> simp [ascii, CacheName.text]

theorem hexDigit_inj : ∀ m < 16, ∀ n < 16,
    UInt8.ofNat (Nat.digitChar m).toNat = UInt8.ofNat (Nat.digitChar n).toNat → m = n := by
  decide

theorem getString_injective :
    Function.Injective fun digest : Bytes => ascii (KeyId.getString digest) := by
  intro x
  induction x with
  | nil =>
      intro y h
      cases y with
      | nil => rfl
      | cons b y => simp [ascii, KeyId.getString] at h
  | cons a x ih =>
      intro y h
      cases y with
      | nil => simp [ascii, KeyId.getString] at h
      | cons b y =>
          simp only [ascii, KeyId.getString, List.flatMap_cons, List.cons_append,
            List.nil_append, List.map_cons, List.cons.injEq] at h
          obtain ⟨hhigh, hlow, hrest⟩ := h
          have ha : a.toNat < 256 := a.toNat_lt
          have hb : b.toNat < 256 := b.toNat_lt
          have hdiv : a.toNat / 16 = b.toNat / 16 :=
            hexDigit_inj _ (by omega) _ (by omega) hhigh
          have hmod : a.toNat % 16 = b.toNat % 16 :=
            hexDigit_inj _ (by omega) _ (by omega) hlow
          have hab : a = b := UInt8.toNat_inj.mp (by omega)
          rw [hab, ih hrest]

/-! ## What one request does -/

section
variable (accepts : Bytes → Bytes → Bool) (entries : Entries) (request : HttpRequest)
  (reaction : Reaction)

/-- The content that the request puts there, if it is a PUT. -/
def putEntry (entries : Entries) (request : HttpRequest) : Entries :=
  Function.update entries request.url (some request.body.data)

/-- A request leaves the entries as they are, or it is a PUT that is accepted. -/
theorem entries_serve :
    (serve accepts entries request).2 = entries
    ∨ request.method = .put ∧ accepts request.url request.body.data = true
      ∧ (serve accepts entries request).2 = putEntry entries request := by
  unfold serve
  cases request.method with
  | get =>
      left
      simp only
      split <;> rfl
  | put =>
      simp only
      split
      case isTrue ha => exact .inr ⟨trivial, ha, rfl⟩
      case isFalse => exact .inl rfl

theorem entries_asyncHttpRequest :
    (asyncHttpRequest accepts entries request reaction).2 = entries
    ∨ request.method = .put ∧ accepts request.url request.body.data = true
      ∧ (asyncHttpRequest accepts entries request reaction).2 = putEntry entries request := by
  cases reaction with
  | served =>
      simp only [asyncHttpRequest]
      split <;> exact entries_serve accepts entries request
  | failed carriedOut failure =>
      cases carriedOut with
      | false => exact .inl rfl
      | true => exact entries_serve accepts entries request

variable {accepts entries request reaction}

/-- A content that is there after a request was there before, or the request has put it. -/
theorem entries_of_asyncHttpRequest {url content : Bytes}
    (h : (asyncHttpRequest accepts entries request reaction).2 url = some content) :
    entries url = some content ∨ (request.method = .put ∧ request.url = url
      ∧ request.body.data = content ∧ accepts url content = true) := by
  rcases entries_asyncHttpRequest accepts entries request reaction
    with he | ⟨hm, ha, he⟩
  · exact .inl (he ▸ h)
  · rw [he, putEntry] at h
    by_cases hu : url = request.url
    · subst hu
      rw [Function.update_self] at h
      obtain rfl := Option.some.inj h
      exact .inr ⟨hm, rfl, rfl, ha⟩
    · rw [Function.update_of_ne hu] at h
      exact .inl h

/-- Requests do not drop entries. -/
theorem isSome_asyncHttpRequest {url : Bytes} (h : (entries url).isSome) :
    ((asyncHttpRequest accepts entries request reaction).2 url).isSome := by
  rcases entries_asyncHttpRequest accepts entries request reaction
    with he | ⟨-, -, he⟩
  · rwa [he]
  · rw [he, putEntry]
    by_cases hu : url = request.url
    · subst hu
      rw [Function.update_self]
      rfl
    · rwa [Function.update_of_ne hu]

/-- A GET that succeeds gives a content that the server has. -/
theorem get_of_ok {response : HttpResponse} (hm : request.method = .get)
    (h : (asyncHttpRequest accepts entries request reaction).1 = .ok response) :
    ∃ content, entries request.url = some content ∧ response.body = .ofBytes content := by
  cases reaction with
  | served =>
      simp only [asyncHttpRequest, serve, hm] at h
      cases he : entries request.url with
      | none => simp [he] at h
      | some content =>
          simp only [he, Nat.reduceDiv, if_true, Except.ok.injEq] at h
          exact ⟨content, rfl, by rw [← h]⟩
  | failed carriedOut failure => cases h

/-- After a PUT that succeeds, the server has the content. -/
theorem put_of_ok {response : HttpResponse} (hm : request.method = .put)
    (h : (asyncHttpRequest accepts entries request reaction).1 = .ok response) :
    accepts request.url request.body.data = true
      ∧ ((asyncHttpRequest accepts entries request reaction).2 request.url).isSome := by
  cases reaction with
  | served =>
      simp only [asyncHttpRequest, serve, hm] at h ⊢
      by_cases ha : accepts request.url request.body.data = true
      · simp [ha]
      · simp [ha] at h
  | failed carriedOut failure => cases h

/-- A 404: the server does not have the entry, or the request has failed with that code. -/
theorem missing_of_badHttpStatusCode (hm : request.method = .get)
    (h : (asyncHttpRequest accepts entries request reaction).1
      = .error (.badHttpStatusCode 404)) :
    entries request.url = none
      ∨ ∃ carriedOut, reaction = .failed carriedOut (.badHttpStatusCode 404) := by
  cases reaction with
  | served =>
      simp only [asyncHttpRequest, serve, hm] at h
      cases he : entries request.url with
      | none => exact .inl rfl
      | some content => simp [he] at h
  | failed carriedOut failure =>
      obtain rfl := Except.error.inj h
      exact .inr ⟨carriedOut, rfl⟩

end

/-! ## What one step does -/

/-- How a call goes on after a request, with the entries before and after it. -/
inductive Exchanged (accepts : Bytes → Bytes → Bool) (sha : Bytes → Bytes) (port : ℤ)
    (key : Bytes) (reaction : Reaction) (entries entries' : Entries) : Phase → Phase → Prop
  | threw {phase : Phase} : Exchanged accepts sha port key reaction entries entries' phase .threw
  | acHit {digest : Bytes} (h : entries (makeUrl port .ac key) = some digest) :
      Exchanged accepts sha port key reaction entries entries' .acGet (.casGet digest)
  | acMiss (h : entries (makeUrl port .ac key) = none
        ∨ ∃ carriedOut, reaction = .failed carriedOut (.badHttpStatusCode 404)) :
      Exchanged accepts sha port key reaction entries entries' .acGet .creating
  | casHit {digest content : Bytes} (h : entries (makeUrl port .cas digest) = some content) :
      Exchanged accepts sha port key reaction entries entries' (.casGet digest)
        (.returned (.ofBytes content))
  | casMiss {digest : Bytes} (h : entries (makeUrl port .cas digest) = none
        ∨ ∃ carriedOut, reaction = .failed carriedOut (.badHttpStatusCode 404)) :
      Exchanged accepts sha port key reaction entries entries' (.casGet digest) .creating
  | casPut {value : Blob}
      (ha : accepts (makeUrl port .cas (getUniqueStringTmpl sha value)) value.data = true)
      (h : (entries' (makeUrl port .cas (getUniqueStringTmpl sha value))).isSome) :
      Exchanged accepts sha port key reaction entries entries' (.casPut value) (.acPut value)
  | acPut {value : Blob}
      (h : (entries' (makeUrl port .ac key)).isSome) :
      Exchanged accepts sha port key reaction entries entries' (.acPut value) (.returned value)

/-- What a step does. -/
inductive Stepped (accepts : Bytes → Bytes → Bool) (sha : Bytes → Bytes) (port : ℤ)
    (s : State) : Event → State → Prop
  | start (key : Bytes) :
      Stepped accepts sha port s (.start key) { s with calls := s.calls ++ [{ key }] }
  | exchange {i : ℕ} {reaction : Reaction} {key : Bytes} {phase phase' : Phase}
      {entries : Entries} (hcall : s.calls[i]? = some ⟨key, phase⟩)
      (hphase : Exchanged accepts sha port key reaction s.entries entries phase phase')
      (hkept : ∀ url, (s.entries url).isSome → (entries url).isSome)
      (hput : ∀ url content, entries url = some content → s.entries url = some content
        ∨ accepts url content = true ∧ ∃ value,
          phase = .casPut value ∧ url = makeUrl port .cas (getUniqueStringTmpl sha value)
              ∧ content = value.data
            ∨ phase = .acPut value ∧ url = makeUrl port .ac key
              ∧ content = getUniqueStringTmpl sha value) :
      Stepped accepts sha port s (.exchange i reaction)
        { s with entries, calls := s.calls.set i ⟨key, phase'⟩ }
  | create {i : ℕ} {key : Bytes} (value : Blob) (hcall : s.calls[i]? = some ⟨key, .creating⟩) :
      Stepped accepts sha port s (.create i (some value))
        { s with
          calls := s.calls.set i ⟨key, .casPut value⟩
          created := s.created ++ [(key, value)] }
  | createThrew {i : ℕ} {key : Bytes} (hcall : s.calls[i]? = some ⟨key, .creating⟩) :
      Stepped accepts sha port s (.create i none)
        { s with calls := s.calls.set i ⟨key, .threw⟩ }
  | evict (url : Bytes) :
      Stepped accepts sha port s (.evict url)
        { s with entries := Function.update s.entries url none }

section
variable {accepts : Bytes → Bytes → Bool} {sha : Bytes → Bytes} {port : ℤ}

theorem getBlobViaHttp_cases (reply : Except HttpFailure HttpResponse) :
    (∃ response, reply = .ok response ∧ getBlobViaHttp reply = .ok (some response.body))
      ∨ (reply = .error (.badHttpStatusCode 404) ∧ getBlobViaHttp reply = .ok none)
      ∨ ∃ e, getBlobViaHttp reply = .error e := by
  unfold getBlobViaHttp
  split
  · exact .inl ⟨_, rfl, rfl⟩
  · split
    · exact .inr (.inr ⟨_, rfl⟩)
    case isFalse h =>
        obtain rfl := not_not.mp h
        exact .inr (.inl ⟨rfl, rfl⟩)
  · exact .inr (.inr ⟨_, rfl⟩)

/-- A call goes on as `Exchanged` says. -/
theorem exchanged_resume {key : Bytes} {phase : Phase} {request : HttpRequest}
    (hr : phase.request sha port key = some request) (entries : Entries)
    (reaction : Reaction) :
    Exchanged accepts sha port key reaction entries
      (asyncHttpRequest accepts entries request reaction).2 phase
      (phase.resume (asyncHttpRequest accepts entries request reaction).1) := by
  cases phase with
  | acGet =>
      obtain rfl := Option.some.inj hr
      rcases getBlobViaHttp_cases
          (asyncHttpRequest accepts entries (makeAcGetRequest port key) reaction).1
        with ⟨response, hok, hget⟩ | ⟨herror, hget⟩ | ⟨e, hget⟩
      · obtain ⟨content, he, hbody⟩ := get_of_ok rfl hok
        simp only [Phase.resume, getStringViaHttp, hget, Except.map, Option.map, hbody]
        exact .acHit he
      · simp only [Phase.resume, getStringViaHttp, hget, Except.map, Option.map]
        exact .acMiss (missing_of_badHttpStatusCode rfl herror)
      · simp only [Phase.resume, getStringViaHttp, hget, Except.map]
        exact .threw
  | casGet digest =>
      obtain rfl := Option.some.inj hr
      rcases getBlobViaHttp_cases
          (asyncHttpRequest accepts entries (makeCasGetRequest port digest) reaction).1
        with ⟨response, hok, hget⟩ | ⟨herror, hget⟩ | ⟨e, hget⟩
      · obtain ⟨content, he, hbody⟩ := get_of_ok rfl hok
        simp only [Phase.resume, hget, hbody]
        exact .casHit he
      · simp only [Phase.resume, hget]
        exact .casMiss (missing_of_badHttpStatusCode rfl herror)
      · simp only [Phase.resume, hget]
        exact .threw
  | casPut value =>
      obtain rfl := Option.some.inj hr
      simp only [Phase.resume]
      cases hreply : (asyncHttpRequest accepts entries
          (makeCasPutRequest port (getUniqueStringTmpl sha value) value) reaction).1 with
      | ok response =>
          obtain ⟨ha, hsome⟩ := put_of_ok rfl hreply
          exact .casPut ha hsome
      | error e => exact .threw
  | acPut value =>
      obtain rfl := Option.some.inj hr
      simp only [Phase.resume]
      cases hreply : (asyncHttpRequest accepts entries
          (makeAcPutRequest port key (getUniqueStringTmpl sha value)) reaction).1 with
      | ok response => exact .acPut (put_of_ok rfl hreply).2
      | error e => exact .threw
  | creating => cases hr
  | returned value => cases hr
  | threw => cases hr

/-- A PUT is of the value or of its digest. -/
theorem put_of_request {key : Bytes} {phase : Phase} {request : HttpRequest}
    (hr : phase.request sha port key = some request) (hm : request.method = .put) :
    ∃ value, phase = .casPut value
          ∧ request.url = makeUrl port .cas (getUniqueStringTmpl sha value)
          ∧ request.body.data = value.data
        ∨ phase = .acPut value ∧ request.url = makeUrl port .ac key
          ∧ request.body.data = getUniqueStringTmpl sha value := by
  cases phase with
  | casPut value =>
      obtain rfl := Option.some.inj hr
      exact ⟨value, .inl ⟨rfl, rfl, rfl⟩⟩
  | acPut value =>
      obtain rfl := Option.some.inj hr
      exact ⟨value, .inr ⟨rfl, rfl, rfl⟩⟩
  | acGet =>
      obtain rfl := Option.some.inj hr
      cases hm
  | casGet digest =>
      obtain rfl := Option.some.inj hr
      cases hm
  | creating => cases hr
  | returned value => cases hr
  | threw => cases hr

theorem stepped_of_step {s s' : State} {e : Event} (h : step accepts sha port s e = some s') :
    Stepped accepts sha port s e s' := by
  cases e with
  | start key =>
      obtain rfl := Option.some.inj h
      exact .start key
  | exchange i reaction =>
      simp only [step, Option.bind_eq_bind, Option.bind_eq_some_iff, Option.some.injEq] at h
      obtain ⟨⟨key, phase⟩, hcall, request, hr, rfl⟩ := h
      refine .exchange hcall (exchanged_resume hr _ _) (fun url => isSome_asyncHttpRequest) ?_
      intro url content hc
      rcases entries_of_asyncHttpRequest hc with hc | ⟨hm, rfl, rfl, ha⟩
      · exact .inl hc
      · exact .inr ⟨ha, put_of_request hr hm⟩
  | create i value =>
      simp only [step, Option.bind_eq_bind, Option.bind_eq_some_iff] at h
      obtain ⟨⟨key, phase⟩, hcall, h⟩ := h
      split at h
      case isTrue hp =>
          obtain rfl : phase = .creating := hp
          cases value with
          | none =>
              obtain rfl := Option.some.inj h
              exact .createThrew hcall
          | some value =>
              obtain rfl := Option.some.inj h
              exact .create value hcall
      case isFalse => cases h
  | evict url =>
      obtain rfl := Option.some.inj h
      exact .evict url

end

/-! ## What is returned -/

section
variable {accepts : Bytes → Bytes → Bool} {sha : Bytes → Bytes} {port : ℤ}

/-- `v` was created for the key, or read: it then has the bytes of a created value, with
the digest of one that was created for the key. -/
def Returnable (sha : Bytes → Bytes) (created : List (Bytes × Blob)) (key : Bytes)
    (v : Blob) : Prop :=
  ∃ value, (key, value) ∈ created ∧ (v = value ∨ ∃ p ∈ created,
    getUniqueStringTmpl sha p.2 = getUniqueStringTmpl sha value ∧ v = .ofBytes p.2.data)

def Phase.Accounted (sha : Bytes → Bytes) (created : List (Bytes × Blob)) (key : Bytes) :
    Phase → Prop
  | casGet digest => ∃ value, (key, value) ∈ created ∧ getUniqueStringTmpl sha value = digest
  | casPut value => (key, value) ∈ created
  | acPut value => (key, value) ∈ created
  | returned v => Returnable sha created key v
  | _ => True

/-- All that the server and the clients have comes from created values. -/
structure State.Accounted (sha : Bytes → Bytes) (port : ℤ) (s : State) : Prop where
  ac : ∀ key digest, s.entries (makeUrl port .ac key) = some digest →
    ∃ value, (key, value) ∈ s.created ∧ getUniqueStringTmpl sha value = digest
  cas : ∀ digest content, s.entries (makeUrl port .cas digest) = some content →
    ∃ p ∈ s.created, getUniqueStringTmpl sha p.2 = digest ∧ p.2.data = content
  calls : ∀ call ∈ s.calls, call.phase.Accounted sha s.created call.key

theorem Returnable.mono {created created' : List (Bytes × Blob)} (hsub : created ⊆ created')
    {key : Bytes} {v : Blob} (h : Returnable sha created key v) :
    Returnable sha created' key v := by
  obtain ⟨value, hvalue, hv⟩ := h
  refine ⟨value, hsub hvalue, hv.imp_right ?_⟩
  rintro ⟨p, hp, hread⟩
  exact ⟨p, hsub hp, hread⟩

theorem Phase.Accounted.mono {created created' : List (Bytes × Blob)}
    (hsub : created ⊆ created') {key : Bytes} {phase : Phase}
    (h : phase.Accounted sha created key) : phase.Accounted sha created' key := by
  cases phase with
  | casGet digest =>
      obtain ⟨value, hvalue, hd⟩ := h
      exact ⟨value, hsub hvalue, hd⟩
  | casPut value => exact hsub h
  | acPut value => exact hsub h
  | returned v => exact Returnable.mono hsub h
  | acGet => trivial
  | creating => trivial
  | threw => trivial

/-- After a request, a call has what is accounted for. -/
theorem State.Accounted.exchanged {s : State} (h : s.Accounted sha port) {key : Bytes}
    {reaction : Reaction} {entries' : Entries} {phase phase' : Phase}
    (hphase : phase.Accounted sha s.created key)
    (hx : Exchanged accepts sha port key reaction s.entries entries' phase phase') :
    phase'.Accounted sha s.created key := by
  cases hx with
  | threw => trivial
  | acMiss => trivial
  | casMiss => trivial
  | acHit hd => exact h.ac _ _ hd
  | casHit hc =>
      obtain ⟨value, hvalue, rfl⟩ := hphase
      obtain ⟨p, hp, hdigest, rfl⟩ := h.cas _ _ hc
      exact ⟨value, hvalue, .inr ⟨p, hp, hdigest, rfl⟩⟩
  | casPut => exact hphase
  | acPut => exact ⟨_, hphase, .inl rfl⟩

theorem State.Accounted.step {s s' : State} {e : Event} (h : s.Accounted sha port)
    (hs : HttpCache.step accepts sha port s e = some s') : s'.Accounted sha port := by
  cases stepped_of_step hs with
  | start key =>
      refine ⟨h.ac, h.cas, ?_⟩
      intro call hcall
      rcases List.mem_append.mp hcall with hcall | hcall
      · exact h.calls call hcall
      · obtain rfl := List.mem_singleton.mp hcall
        trivial
  | exchange hcall hx hkept hput =>
      have hphase := h.calls _ (List.mem_of_getElem? hcall)
      refine ⟨?_, ?_, ?_⟩
      · intro key digest hd
        rcases hput _ _ hd with hd | ⟨-, value, ⟨-, hu, -⟩ | ⟨rfl, hu, rfl⟩⟩
        · exact h.ac key digest hd
        · cases (makeUrl_inj.mp hu).1
        · obtain rfl := (makeUrl_inj.mp hu).2
          exact ⟨value, hphase, rfl⟩
      · intro digest content hc
        rcases hput _ _ hc with hc | ⟨-, value, ⟨rfl, hu, rfl⟩ | ⟨-, hu, -⟩⟩
        · exact h.cas digest content hc
        · obtain rfl := (makeUrl_inj.mp hu).2
          exact ⟨_, hphase, rfl, rfl⟩
        · cases (makeUrl_inj.mp hu).1
      · intro call hmem
        rcases List.mem_or_eq_of_mem_set hmem with hmem | rfl
        · exact h.calls call hmem
        · exact h.exchanged hphase hx
  | @create i key value hcall =>
      have hsub : s.created ⊆ s.created ++ [(key, value)] := List.subset_append_left _ _
      refine ⟨?_, ?_, ?_⟩
      · intro key' digest hd
        obtain ⟨value', hvalue', hdigest⟩ := h.ac key' digest hd
        exact ⟨value', hsub hvalue', hdigest⟩
      · intro digest content hc
        obtain ⟨p, hp, hread⟩ := h.cas digest content hc
        exact ⟨p, hsub hp, hread⟩
      · intro call hmem
        rcases List.mem_or_eq_of_mem_set hmem with hmem | rfl
        · exact (h.calls call hmem).mono hsub
        · exact List.mem_append_right _ (List.mem_singleton_self _)
  | createThrew hcall =>
      refine ⟨h.ac, h.cas, ?_⟩
      intro call hmem
      rcases List.mem_or_eq_of_mem_set hmem with hmem | rfl
      · exact h.calls call hmem
      · trivial
  | evict url =>
      have hbefore : ∀ url' content, Function.update s.entries url none url' = some content →
          s.entries url' = some content := by
        intro url' content hc
        by_cases hu : url' = url
        · subst hu
          simp at hc
        · rwa [Function.update_of_ne hu] at hc
      exact ⟨fun key digest hd => h.ac key digest (hbefore _ _ hd),
        fun digest content hc => h.cas digest content (hbefore _ _ hc), h.calls⟩

theorem accounted_of_reachable {s : State}
    (h : Transition.Reachable (step accepts sha port) (fun _ _ => True) {{}} s) :
    s.Accounted sha port := by
  refine h.invariant ?_ fun _ _ _ hs _ hstep => hs.step hstep
  rintro s rfl
  exact ⟨fun _ _ hd => (by cases hd), fun _ _ hc => (by cases hc), fun _ hcall => (by cases hcall)⟩

/-- Where the digests of unequal streams differ and a path has one content for all
processes, values are known by their digests. -/
theorem data_eq_of_stream {fs : Bytes → Bytes} {b b' : Blob} (hb : b.Backed fs)
    (hb' : b'.Backed fs) (h : b.stream = b'.stream) : b.data = b'.data := by
  unfold Blob.stream at h
  cases hm : b.mappedFile with
  | none =>
      cases hm' : b'.mappedFile with
      | none =>
          simp only [hm, hm', List.cons.injEq] at h
          exact h.2
      | some path' => simp [hm, hm'] at h
  | some path =>
      cases hm' : b'.mappedFile with
      | none => simp [hm, hm'] at h
      | some path' =>
          simp only [hm, hm', List.cons.injEq] at h
          obtain ⟨-, rfl⟩ := h
          rw [hb _ hm, hb' _ hm']

/-- Whatever the server drops or refuses, and in whatever order the requests of all the
clients are served or fail, a call returns a value that was created for its key. -/
theorem equals_created_of_returned {s : State}
    (h : Transition.Reachable (step accepts sha port) (fun _ _ => True) {{}} s)
    (hsha : ∀ p ∈ s.created, ∀ q ∈ s.created,
      sha p.2.stream = sha q.2.stream → p.2.stream = q.2.stream)
    {f : Bytes → Bytes} (hfs : ∀ p ∈ s.created, p.2.Backed f) {key : Bytes} {v : Blob}
    (hv : ⟨key, .returned v⟩ ∈ s.calls) :
    ∃ value, (key, value) ∈ s.created ∧ v.equals value = true := by
  obtain ⟨value, hvalue, rfl | ⟨p, hp, hdigest, rfl⟩⟩ :=
    (accounted_of_reachable h).calls _ hv
  · exact ⟨v, hvalue, by simp [Blob.equals]⟩
  · have hstream : p.2.stream = value.stream :=
      hsha p hp _ hvalue (getString_injective hdigest)
    refine ⟨value, hvalue, ?_⟩
    simpa [Blob.equals, Blob.ofBytes] using data_eq_of_stream (hfs p hp) (hfs _ hvalue) hstream

end

/-- A call that creates its value, and a second one that reads it. -/
def twoCalls : List Event :=
  [.start [1], .exchange 0 .served, .create 0 (some (.ofBytes [7])), .exchange 0 .served,
    .exchange 0 .served, .start [1], .exchange 1 .served, .exchange 1 .served]

theorem run_twoCalls :
    (Transition.run (step (fun _ _ => true) id 9090) {} twoCalls).map
        (fun s => (s.calls, s.created))
      = some ([⟨[1], .returned (.ofBytes [7])⟩, ⟨[1], .returned (.ofBytes [7])⟩],
        [([1], .ofBytes [7])]) := by
  decide +kernel

theorem equals_created_twoCalls : ∃ s, Transition.run (step (fun _ _ => true) id 9090) {} twoCalls
      = some s ∧ ∃ value, ([1], value) ∈ s.created
        ∧ (Blob.ofBytes [7]).equals value = true := by
  obtain ⟨s, hs, heq⟩ := Option.map_eq_some_iff.mp run_twoCalls
  obtain ⟨hcalls, hcreated⟩ := Prod.mk.inj heq
  refine ⟨s, hs, equals_created_of_returned (f := id)
    (Transition.Reachable.run (.start (Set.mem_singleton _)) hs)
    (fun _ _ _ _ h => h) ?_ (by rw [hcalls]; decide)⟩
  rw [hcreated]
  intro p hp path hpath
  obtain rfl := List.mem_singleton.mp hp
  cases hpath

/-- Two processes with different files at one path: the first one is given the bytes of
the file of the second. -/
example :
    (Transition.run (step (fun _ _ => true) id 9090) {}
        [.start [1], .exchange 0 .served, .create 0 (some (.ofFile [7] (some [47]))),
          .exchange 0 .served, .exchange 0 .served,
          .start [2], .exchange 1 .served, .create 1 (some (.ofFile [8] (some [47]))),
          .exchange 1 .served, .exchange 1 .served,
          .start [1], .exchange 2 .served, .exchange 2 .served]).map (fun s => s.calls[2]?)
      = some (some ⟨[1], .returned (.ofBytes [8])⟩) := by
  decide +kernel

/-! ## What is not created again -/

section
variable {accepts : Bytes → Bytes → Bool} {sha : Bytes → Bytes} {port : ℤ}

/-- The server drops nothing, and no request fails with the code that stands for an entry
that is not there. -/
def Event.Keeps : Event → Prop
  | evict _ => False
  | exchange _ (.failed _ failure) => failure ≠ .badHttpStatusCode 404
  | _ => True

instance : DecidablePred Event.Keeps := fun e =>
  match e with
  | .evict _ => inferInstanceAs (Decidable False)
  | .exchange _ (.failed _ failure) =>
      inferInstanceAs (Decidable (failure ≠ .badHttpStatusCode 404))
  | .exchange _ .served => inferInstanceAs (Decidable True)
  | .start _ => inferInstanceAs (Decidable True)
  | .create _ _ => inferInstanceAs (Decidable True)

/-- A call that has not run `create_task` and is not about to. -/
def Phase.Reading : Phase → Prop
  | creating => False
  | casPut _ => False
  | acPut _ => False
  | _ => True

def Phase.Stocked (sha : Bytes → Bytes) (port : ℤ) (entries : Entries) (key : Bytes) :
    Phase → Prop
  | casGet digest => (entries (makeUrl port .ac key)).isSome
      ∧ (entries (makeUrl port .cas digest)).isSome
  | acPut value => (entries (makeUrl port .cas (getUniqueStringTmpl sha value))).isSome
  | returned _ => (entries (makeUrl port .ac key)).isSome
  | _ => True

/-- What the AC refers to is in the CAS, and the AC has the key of each call that has
returned. -/
structure State.Stocked (sha : Bytes → Bytes) (port : ℤ) (s : State) : Prop where
  ac : ∀ key digest, s.entries (makeUrl port .ac key) = some digest →
    (s.entries (makeUrl port .cas digest)).isSome
  calls : ∀ call ∈ s.calls, call.phase.Stocked sha port s.entries call.key

theorem Phase.Stocked.mono {entries entries' : Entries} {key : Bytes} {phase : Phase}
    (hkept : ∀ url, (entries url).isSome → (entries' url).isSome)
    (h : phase.Stocked sha port entries key) : phase.Stocked sha port entries' key := by
  cases phase with
  | casGet digest => exact ⟨hkept _ h.1, hkept _ h.2⟩
  | acPut value => exact hkept _ h
  | returned value => exact hkept _ h
  | acGet => trivial
  | creating => trivial
  | casPut value => trivial
  | threw => trivial

theorem State.Stocked.exchanged {s : State} (h : s.Stocked sha port) {key : Bytes}
    {reaction : Reaction} {entries' : Entries} {phase phase' : Phase}
    (hphase : phase.Stocked sha port s.entries key)
    (hkept : ∀ url, (s.entries url).isSome → (entries' url).isSome)
    (hx : Exchanged accepts sha port key reaction s.entries entries' phase phase') :
    phase'.Stocked sha port entries' key := by
  cases hx with
  | threw => trivial
  | acMiss => trivial
  | casMiss => trivial
  | acHit hd => exact ⟨hkept _ (by simp [hd]), hkept _ (h.ac _ _ hd)⟩
  | casHit hc => exact hkept _ hphase.1
  | casPut ha hsome => exact hsome
  | acPut hsome => exact hsome

theorem State.Stocked.step {s s' : State} {e : Event} (h : s.Stocked sha port)
    (he : e.Keeps) (hs : HttpCache.step accepts sha port s e = some s') :
    s'.Stocked sha port := by
  cases stepped_of_step hs with
  | start key =>
      refine ⟨h.ac, ?_⟩
      intro call hcall
      rcases List.mem_append.mp hcall with hcall | hcall
      · exact h.calls call hcall
      · obtain rfl := List.mem_singleton.mp hcall
        trivial
  | exchange hcall hx hkept hput =>
      have hphase := h.calls _ (List.mem_of_getElem? hcall)
      refine ⟨?_, ?_⟩
      · intro key digest hd
        rcases hput _ _ hd with hd | ⟨-, value, ⟨-, hu, -⟩ | ⟨rfl, hu, rfl⟩⟩
        · exact hkept _ (h.ac key digest hd)
        · cases (makeUrl_inj.mp hu).1
        · exact hkept _ hphase
      · intro call hmem
        rcases List.mem_or_eq_of_mem_set hmem with hmem | rfl
        · exact (h.calls call hmem).mono hkept
        · exact h.exchanged hphase hkept hx
  | create value hcall =>
      refine ⟨h.ac, ?_⟩
      intro call hmem
      rcases List.mem_or_eq_of_mem_set hmem with hmem | rfl
      · exact h.calls call hmem
      · trivial
  | createThrew hcall =>
      refine ⟨h.ac, ?_⟩
      intro call hmem
      rcases List.mem_or_eq_of_mem_set hmem with hmem | rfl
      · exact h.calls call hmem
      · trivial
  | evict url => exact he.elim

/-- The calls for the key from the `n`th on only read. -/
def ReadingFrom (n : ℕ) (key : Bytes) (calls : List Call) : Prop :=
  ∀ j, n ≤ j → ∀ phase, calls[j]? = some ⟨key, phase⟩ → phase.Reading

theorem ReadingFrom.set {n : ℕ} {key : Bytes} {calls : List Call}
    (h : ReadingFrom n key calls) {i : ℕ} {key' : Bytes} {phase' : Phase}
    (hnew : n ≤ i → key' = key → phase'.Reading) :
    ReadingFrom n key (calls.set i ⟨key', phase'⟩) := by
  intro j hj phase hcall
  by_cases hij : i = j
  · subst hij
    have hmem : i < calls.length := by
      simpa using (List.getElem?_eq_some_iff.mp hcall).1
    rw [List.getElem?_set_self hmem] at hcall
    cases hcall
    exact hnew hj rfl
  · rw [List.getElem?_set_ne hij] at hcall
    exact h j hj phase hcall

theorem ReadingFrom.start {n : ℕ} {key : Bytes} {calls : List Call}
    (h : ReadingFrom n key calls) (key' : Bytes) :
    ReadingFrom n key (calls ++ [{ key := key' }]) := by
  intro j hj phase hcall
  rw [List.getElem?_append] at hcall
  split at hcall
  case isTrue => exact h j hj phase hcall
  case isFalse =>
      have hmem := List.mem_singleton.mp (List.mem_of_getElem? hcall)
      cases hmem
      trivial

/-- The AC has the key, and the calls for it from the `n`th on only read. -/
structure State.ReadsFrom (sha : Bytes → Bytes) (port : ℤ) (n : ℕ) (key : Bytes) (s : State) :
    Prop where
  stocked : s.Stocked sha port
  has : (s.entries (makeUrl port .ac key)).isSome
  length : n ≤ s.calls.length
  reading : ReadingFrom n key s.calls

/-- The request of a call that reads finds its entry. -/
theorem Exchanged.reading {key : Bytes} {reaction : Reaction} {i : ℕ}
    {entries entries' : Entries} {phase phase' : Phase}
    (hx : Exchanged accepts sha port key reaction entries entries' phase phase')
    (he : (Event.exchange i reaction).Keeps) (h : phase.Reading)
    (hhas : (entries (makeUrl port .ac key)).isSome)
    (hphase : phase.Stocked sha port entries key) : phase'.Reading := by
  have hserved : ¬∃ carriedOut, reaction = .failed carriedOut (.badHttpStatusCode 404) := by
    rintro ⟨carriedOut, rfl⟩
    exact he rfl
  cases hx with
  | threw => trivial
  | acHit => trivial
  | casHit => trivial
  | acPut => trivial
  | casPut => exact h.elim
  | acMiss hmiss =>
      rcases hmiss with hmiss | hmiss
      · simp [hmiss] at hhas
      · exact absurd hmiss hserved
  | casMiss hmiss =>
      rcases hmiss with hmiss | hmiss
      · simp [Phase.Stocked, hmiss] at hphase
      · exact absurd hmiss hserved

theorem State.ReadsFrom.step {n : ℕ} {key : Bytes} {s s' : State} {e : Event}
    (h : s.ReadsFrom sha port n key) (he : e.Keeps)
    (hs : HttpCache.step accepts sha port s e = some s') : s'.ReadsFrom sha port n key := by
  have hstocked := h.stocked.step he hs
  cases stepped_of_step hs with
  | start key' =>
      refine ⟨hstocked, h.has, ?_, h.reading.start key'⟩
      rw [List.length_append]
      exact h.length.trans (Nat.le_add_right _ _)
  | exchange hcall hx hkept hput =>
      refine ⟨hstocked, hkept _ h.has, by simpa using h.length, h.reading.set ?_⟩
      rintro hi rfl
      exact hx.reading he (h.reading _ hi _ hcall) h.has
        (h.stocked.calls _ (List.mem_of_getElem? hcall))
  | create value hcall =>
      refine ⟨hstocked, h.has, by simpa using h.length, h.reading.set ?_⟩
      rintro hi rfl
      exact (h.reading _ hi _ hcall).elim
  | createThrew hcall =>
      exact ⟨hstocked, h.has, by simpa using h.length, h.reading.set fun _ _ => trivial⟩
  | evict url => exact he.elim

theorem stocked_of_reachable {s : State}
    (h : Transition.Reachable (step accepts sha port) (fun _ e => e.Keeps) {{}} s) :
    s.Stocked sha port := by
  refine h.invariant ?_ fun _ _ _ hs he hstep => hs.step he hstep
  rintro s rfl
  exact ⟨fun _ _ hd => (by cases hd), fun _ hcall => (by cases hcall)⟩

/-- When one call has returned, no call for the same key that starts later, at any client,
runs `create_task`: as long as the server keeps its entries, each value is looked up from
then on. -/
theorem reading_of_returned {s s' : State}
    (h : Transition.Reachable (step accepts sha port) (fun _ e => e.Keeps) {{}} s)
    {key : Bytes} {v : Blob} (hv : ⟨key, .returned v⟩ ∈ s.calls)
    (h' : Transition.Reachable (step accepts sha port) (fun _ e => e.Keeps) {s} s')
    {j : ℕ} (hj : s.calls.length ≤ j) {phase : Phase}
    (hcall : s'.calls[j]? = some ⟨key, phase⟩) : phase.Reading := by
  have hstocked := stocked_of_reachable h
  have hinv : s'.ReadsFrom sha port s.calls.length key := by
    refine h'.invariant ?_ fun _ _ _ hs he hstep => hs.step he hstep
    rintro _ rfl
    refine ⟨hstocked, hstocked.calls _ hv, le_rfl, ?_⟩
    intro j hj phase hcall
    rw [List.getElem?_eq_none hj] at hcall
    cases hcall
  exact hinv.reading j hj phase hcall

/-- The second call, after the first one has returned. -/
theorem reading_twoCalls : ∃ s s' : State, ⟨[1], .returned (.ofBytes [7])⟩ ∈ s.calls
    ∧ s'.calls.length = 2 ∧ ∀ phase, s'.calls[1]? = some ⟨[1], phase⟩ → phase.Reading := by
  obtain ⟨s', hs', hcalls'⟩ := Option.map_eq_some_iff.mp run_twoCalls
  have hkeeps : ∀ e ∈ twoCalls, e.Keeps := by decide
  have hfirst : (Transition.run (step (fun _ _ => true) id 9090) {} (twoCalls.take 5)).map
      (fun s => s.calls) = some [⟨[1], .returned (.ofBytes [7])⟩] := by decide +kernel
  obtain ⟨s, hs, hcalls⟩ := Option.map_eq_some_iff.mp hfirst
  have hmem : ⟨[1], .returned (.ofBytes [7])⟩ ∈ s.calls := by rw [hcalls]; decide
  have hrest : Transition.run (step (fun _ _ => true) id 9090) s (twoCalls.drop 5) = some s' := by
    rw [← hs', ← List.take_append_drop 5 twoCalls, Transition.run_append, hs]
    rfl
  refine ⟨s, s', hmem, by rw [(Prod.mk.inj hcalls').1]; rfl, fun phase hphase => ?_⟩
  refine reading_of_returned
    (Transition.Reachable.run_of_stepsMeet (.start (Set.mem_singleton _))
      (Transition.stepsMeet_of_forall_mem (fun e he _ => hkeeps e (List.mem_of_mem_take he)) _) hs)
    hmem
    (Transition.Reachable.run_of_stepsMeet (.start (Set.mem_singleton _))
      (Transition.stepsMeet_of_forall_mem (fun e he _ => hkeeps e (List.mem_of_mem_drop he)) _)
      hrest)
    (j := 1) (by rw [hcalls]; rfl) hphase

/-! ## A server that checks digests -/

/-- A server that takes a content into its CAS only under the hash of the content. -/
def ChecksDigests (accepts : Bytes → Bytes → Bool) (sha : Bytes → Bytes) (port : ℤ) : Prop :=
  ∀ digest content, accepts (makeUrl port .cas digest) content = true →
    digest = ascii (KeyId.getString (sha content))

def Phase.Refused (created : List (Bytes × Blob)) (key : Bytes) : Phase → Prop
  | casGet _ => False
  | acPut _ => False
  | returned _ => False
  | casPut value => (key, value) ∈ created
  | _ => True

/-- Nothing has been stored, and no call has got past its first PUT. -/
structure State.Refused (s : State) : Prop where
  entries : ∀ url, s.entries url = none
  calls : ∀ call ∈ s.calls, call.phase.Refused s.created call.key

theorem Phase.Refused.mono {created created' : List (Bytes × Blob)}
    (hsub : created ⊆ created') {key : Bytes} {phase : Phase}
    (h : phase.Refused created key) : phase.Refused created' key := by
  cases phase with
  | casGet digest => exact h
  | acPut value => exact h
  | returned value => exact h
  | casPut value => exact hsub h
  | acGet => trivial
  | creating => trivial
  | threw => trivial

theorem created_subset_of_step {s s' : State} {e : Event}
    (h : step accepts sha port s e = some s') : s.created ⊆ s'.created := by
  cases stepped_of_step h with
  | start => exact List.Subset.refl _
  | exchange => exact List.Subset.refl _
  | create => exact List.subset_append_left _ _
  | createThrew => exact List.Subset.refl _
  | evict => exact List.Subset.refl _

theorem State.Refused.step (hcheck : ChecksDigests accepts sha port) {s s' : State} {e : Event}
    (h : s.Refused) (hne : ∀ p ∈ s.created, sha p.2.stream ≠ sha p.2.data)
    (hs : HttpCache.step accepts sha port s e = some s') : s'.Refused := by
  cases stepped_of_step hs with
  | start key =>
      refine ⟨h.entries, ?_⟩
      intro call hcall
      rcases List.mem_append.mp hcall with hcall | hcall
      · exact h.calls call hcall
      · obtain rfl := List.mem_singleton.mp hcall
        trivial
  | exchange hcall hx hkept hput =>
      have hphase := h.calls _ (List.mem_of_getElem? hcall)
      -- The digest that the value is put under covers its tag byte too.
      have hrefused : ∀ key value, (key, value) ∈ s.created →
          accepts (makeUrl port .cas (getUniqueStringTmpl sha value)) value.data ≠ true := by
        intro key value hvalue ha
        exact hne _ hvalue (getString_injective (hcheck _ _ ha))
      refine ⟨?_, ?_⟩
      · intro url
        rw [Option.eq_none_iff_forall_ne_some]
        intro content hc
        rcases hput url content hc with hc | ⟨ha, value, ⟨rfl, rfl, rfl⟩ | ⟨rfl, -, -⟩⟩
        · rw [h.entries] at hc
          cases hc
        · exact hrefused _ value hphase ha
        · exact hphase
      · intro call hmem
        rcases List.mem_or_eq_of_mem_set hmem with hmem | rfl
        · exact h.calls call hmem
        · cases hx with
          | threw => trivial
          | acMiss => trivial
          | casMiss => trivial
          | acHit hd =>
              rw [h.entries] at hd
              cases hd
          | casHit hc =>
              rw [h.entries] at hc
              cases hc
          | casPut ha => exact hrefused _ _ hphase ha
          | acPut => exact hphase
  | create value hcall =>
      refine ⟨h.entries, ?_⟩
      intro call hmem
      rcases List.mem_or_eq_of_mem_set hmem with hmem | rfl
      · exact (h.calls call hmem).mono (List.subset_append_left _ _)
      · exact List.mem_append_right _ (List.mem_singleton_self _)
  | createThrew hcall =>
      refine ⟨h.entries, ?_⟩
      intro call hmem
      rcases List.mem_or_eq_of_mem_set hmem with hmem | rfl
      · exact h.calls call hmem
      · trivial
  | evict url =>
      refine ⟨?_, h.calls⟩
      intro url'
      change Function.update s.entries url none url' = none
      by_cases hu : url' = url
      · subst hu
        rw [Function.update_self]
      · rw [Function.update_of_ne hu]
        exact h.entries url'

/-- At a server that checks digests, no value is ever stored and no call ever returns: the
digest of a value is not the hash of its bytes, as it covers a tag byte, or the path of a
blob file. -/
theorem nothing_stored_of_checksDigests (hcheck : ChecksDigests accepts sha port) {s : State}
    (h : Transition.Reachable (step accepts sha port) (fun _ _ => True) {{}} s)
    (hne : ∀ p ∈ s.created, sha p.2.stream ≠ sha p.2.data) :
    (∀ url, s.entries url = none) ∧ ∀ key v, ⟨key, .returned v⟩ ∉ s.calls := by
  have hrefused : (∀ p ∈ s.created, sha p.2.stream ≠ sha p.2.data) → s.Refused := by
    refine h.invariant (I := fun s =>
      (∀ p ∈ s.created, sha p.2.stream ≠ sha p.2.data) → s.Refused) ?_ ?_
    · rintro s rfl -
      exact ⟨fun _ => rfl, fun _ hcall => (by cases hcall)⟩
    · intro s s' e hs _ hstep hne'
      have hbefore : ∀ p ∈ s.created, sha p.2.stream ≠ sha p.2.data :=
        fun p hp => hne' p (created_subset_of_step hstep hp)
      exact (hs hbefore).step hcheck hbefore hstep
  exact ⟨(hrefused hne).entries, fun key v hv => (hrefused hne).calls _ hv⟩

end

/-- A server in the way of bazel-remote: anything in the AC, and in the CAS what has its
hash as its key. -/
def bazelRemote (sha : Bytes → Bytes) (port : ℤ) (url content : Bytes) : Bool :=
  (makeUrl port .ac []).isPrefixOf url
    || url == makeUrl port .cas (ascii (KeyId.getString (sha content)))

theorem checksDigests_bazelRemote (sha : Bytes → Bytes) (port : ℤ) :
    ChecksDigests (bazelRemote sha port) sha port := by
  intro digest content h
  rcases Bool.or_eq_true_iff.mp h with h | h
  · obtain ⟨key, hkey⟩ := List.isPrefixOf_iff_prefix.mp h
    have hac : makeUrl port .ac key = makeUrl port .cas digest := by
      rw [← hkey]
      simp [makeUrl]
    cases (makeUrl_inj.mp hac).1
  · exact (makeUrl_inj.mp (beq_iff_eq.mp h)).2

/-- A value that is created and refused. -/
def refusedCall : List Event :=
  [.start [1], .exchange 0 .served, .create 0 (some (.ofBytes [7])), .exchange 0 .served]

theorem nothing_stored_refusedCall :
    ∃ s, Transition.run (step (bazelRemote id 9090) id 9090) {} refusedCall = some s
      ∧ s.created = [([1], .ofBytes [7])]
      ∧ (∀ url, s.entries url = none) ∧ ∀ key v, ⟨key, .returned v⟩ ∉ s.calls := by
  have hrun : (Transition.run (step (bazelRemote id 9090) id 9090) {} refusedCall).map
      (fun s => s.created) = some [([1], .ofBytes [7])] := by decide +kernel
  obtain ⟨s, hs, hcreated⟩ := Option.map_eq_some_iff.mp hrun
  refine ⟨s, hs, hcreated, nothing_stored_of_checksDigests (checksDigests_bazelRemote id 9090)
    (Transition.Reachable.run (.start (Set.mem_singleton _)) hs) ?_⟩
  rw [hcreated]
  intro p hp
  obtain rfl := List.mem_singleton.mp hp
  decide

end Cradle.Service.HttpCache
