import AxlSdk.Net.Http.Core

/-!
# Request dispatch (`src/net/axl-http-dispatch.c`)

Middleware, route lookup (`src/net/axl-http-route.c`), the response cache, route
authentication and the handlers, in the order `dispatch_request` takes them.
Middleware, the authentication callback and the handlers are arbitrary functions
of a world `ω`, which they may change; the clock is read twice in a request.

Every cache entry remembers, besides the fields of `CachedResponse`, where it
came from: the request and the route whose handler produced it, and how many
entries were stored before it. No branch reads these.

- `visits_protected_iff`: along a run, a body that a protected route's handler
  produced only goes to requests that pass that route's check, exactly if no
  request is served an entry of a protected route that it may not see. The
  lookup comes before the check, so the code itself does not see to that.
- `visits_faithful`: along a run of requests whose keys are not cut, an entry only
  answers the requests it was stored for, within its time to live; the cache
  stays within its bound and evicts in insertion order.
-/

namespace AxlSdk

namespace Http

open List

/-! ## Routes -/

/-- `AxlHttpRequest`, as callbacks see it. -/
structure AxlHttpRequest where
  method : List UInt8
  path : List UInt8
  query : Option (List UInt8)
  headers : List (List UInt8 × List UInt8)
  body : List UInt8
  clientAddr : List UInt8
  deriving DecidableEq

/-- `AxlHttpResponse`; `body = none` is a NULL body. -/
structure AxlHttpResponse where
  statusCode : Nat
  contentType : Option (List UInt8)
  body : Option (List UInt8)
  headers : List (List UInt8 × List UInt8)
  deriving DecidableEq

structure AxlAuthInfo where
  username : Option (List UInt8)
  role : Nat

variable {ω : Type}

/-- A middleware function; the flag says that it returned `AXL_OK`. -/
def Middleware (ω : Type) : Type :=
  ω → AxlHttpRequest → AxlHttpResponse → Bool × AxlHttpRequest × AxlHttpResponse × ω

/-- The server's authentication callback; the flag says that it returned 0. -/
def AuthCallback (ω : Type) : Type :=
  ω → AxlHttpRequest → Bool × AxlAuthInfo × AxlHttpRequest × ω

/-- A route handler; the flag says that it returned 0. -/
def Handler (ω : Type) : Type :=
  ω → AxlHttpRequest → AxlHttpResponse → Bool × AxlHttpResponse × ω

structure HttpRoute (ω : Type) where
  handler : Option (Handler ω)
  authFlags : UInt32

def axlRouteNoAuth : UInt32 := 0

def axlRouteAdmin : UInt32 := 2

/-- What `axl_snprintf` leaves in a buffer of `size` bytes. -/
def snprintf (size : Nat) (text : List UInt8) : List UInt8 := text.take (size - 1)

/-- `uppercase_method` into a buffer of 16 bytes. -/
def uppercaseMethod (method : List UInt8) : List UInt8 := (method.map toUpper).take 15

/-- `axl_radix_tree_lookup_prefix`: the longest registered key that `key` starts
with. -/
def lookupPrefix (routes : List (List UInt8 × HttpRoute ω)) (key : List UInt8) :
    Option (HttpRoute ω) :=
  (routes.foldl (fun best r =>
    if r.1.isPrefixOf key then
      match best with
      | some b => if b.1.length < r.1.length then some r else some b
      | none => some r
    else best) none).map (·.2)

/-- The configuration of an `AxlHttpServer`. -/
structure HttpServer (ω : Type) where
  exactRoutes : List (List UInt8 × HttpRoute ω)
  prefixRoutes : List (List UInt8 × HttpRoute ω)
  middleware : List (Middleware ω)
  authCb : Option (AuthCallback ω)
  /-- `s->cache != NULL` -/
  caching : Bool
  cacheMax : Nat
  cacheTtlMs : UInt64
  routeTtls : List (List UInt8 × UInt64)
  /-- `axl_http_server_use_cache` refuses an empty cache. -/
  cacheMax_pos : 0 < cacheMax

/-- `find_route`: exact with the method, prefix with the method, then both with
the wildcard method `*`. -/
def findRoute (s : HttpServer ω) (method path : List UInt8) : Option (HttpRoute ω) :=
  let key := snprintf 512 (uppercaseMethod method ++ space :: path)
  let wild := snprintf 512 (0x2a :: space :: path)
  (s.exactRoutes.lookup key).or <| (lookupPrefix s.prefixRoutes key).or <|
    (s.exactRoutes.lookup wild).or (lookupPrefix s.prefixRoutes wild)

/-! ## The response cache -/

/-- `CachedResponse`. -/
structure CachedResponse where
  body : List UInt8
  statusCode : Nat
  contentType : List UInt8
  timestampMs : UInt64
  insertSeq : UInt64
  ttlMs : UInt64
  deriving DecidableEq

def axlCacheForever : UInt64 := 0xffffffffffffffff

/-- The request that a connection has received in full. -/
structure HttpConn extends RequestLine where
  headers : List (List UInt8 × List UInt8)
  body : List UInt8
  clientAddr : List UInt8

/-- Where an entry came from: the request it answered, the route whose handler
wrote it, and the number of entries stored before. -/
structure Origin (ω : Type) where
  conn : HttpConn
  route : HttpRoute ω
  born : Nat

structure Entry (ω : Type) where
  key : List UInt8
  value : CachedResponse
  origin : Origin ω

/-- The cache, with the server's insertion counter. `stores` counts the entries
ever stored. -/
structure Cache (ω : Type) where
  entries : List (Entry ω)
  cacheSeq : UInt64
  stores : Nat

def Cache.empty : Cache ω := ⟨[], 0, 0⟩

/-- The cache key before it is cut to the key buffer. -/
def fullKey (conn : HttpConn) : List UInt8 :=
  uppercaseMethod conn.method ++ space :: (conn.path ++
    match conn.query with
    | some (q :: qs) => questionMark :: q :: qs
    | _ => [])

def cacheKey (conn : HttpConn) : List UInt8 := snprintf 512 (fullKey conn)

/-- `find_oldest_cb` over the table: the first entry with the least sequence
number. -/
def findOldest (entries : List (Entry ω)) : Option (Entry ω) :=
  entries.foldl (fun best e =>
    match best with
    | none => some e
    | some b => if e.value.insertSeq < b.value.insertSeq then some e else some b) none

/-- `evict_oldest_cache_entry`, with the entry that it removes. -/
def evictOldest (entries : List (Entry ω)) : List (Entry ω) × List (Entry ω) :=
  match findOldest entries with
  | some o => (entries.filter (·.key != o.key), [o])
  | none => (entries, [])

/-- The eviction loop before an insertion of `key`: evict while the cache is full
and does not hold the key. Returns the evicted entries too. -/
def makeRoom (max : Nat) (key : List UInt8) :
    Nat → List (Entry ω) → List (Entry ω) × List (Entry ω)
  | 0, entries => (entries, [])
  | fuel + 1, entries =>
    if max ≤ entries.length ∧ entries.all (·.key != key) then
      let (kept, gone) := evictOldest entries
      let (rest, gone') := makeRoom max key fuel kept
      (rest, gone ++ gone')
    else (entries, [])

/-- What a request meets in its environment: the clock at the lookup and at the
store, whether the entry and its copies can be allocated, and whether the table
takes the new key. -/
structure Env where
  lookupMs : UInt64
  storeMs : UInt64
  allocated : Bool
  inserted : Bool

/-- The time to live that is put on a new entry: a stored 0 reads back as a NULL
value, that is as no entry for the path. -/
def ttlFor (s : HttpServer ω) (path : List UInt8) : UInt64 :=
  match s.routeTtls.lookup path with
  | some ttl => if ttl = 0 then s.cacheTtlMs else ttl
  | none => s.cacheTtlMs

/-- The cache tail of `dispatch_request`. Returns the evicted entries too. -/
def store (s : HttpServer ω) (c : Cache ω) (conn : HttpConn) (route : HttpRoute ω)
    (resp : AxlHttpResponse) (env : Env) : Cache ω × List (Entry ω) :=
  match resp.body with
  | some (b :: bs) =>
    if s.caching ∧ 200 ≤ resp.statusCode ∧ resp.statusCode < 300 ∧ env.allocated then
      let value : CachedResponse :=
        { body := b :: bs
          statusCode := resp.statusCode
          contentType := (resp.contentType.getD []).take 63
          timestampMs := env.storeMs
          insertSeq := c.cacheSeq + 1
          ttlMs := ttlFor s conn.path }
      let entry : Entry ω := ⟨cacheKey conn, value, ⟨conn, route, c.stores⟩⟩
      let (room, gone) := makeRoom s.cacheMax entry.key c.entries.length c.entries
      let entries := if env.inserted then room.filter (·.key != entry.key) ++ [entry] else room
      (⟨entries, c.cacheSeq + 1, c.stores + 1⟩, gone)
    else (c, [])
  | _ => (c, [])

/-! ## Dispatch -/

/-- `run_middleware`: `none` when a middleware function did not return `AXL_OK`. -/
def runMiddleware : List (Middleware ω) → ω → AxlHttpRequest → AxlHttpResponse →
    Bool × AxlHttpRequest × AxlHttpResponse × ω
  | [], w, req, resp => (true, req, resp, w)
  | mw :: rest, w, req, resp =>
    match mw w req resp with
    | (true, req', resp', w') => runMiddleware rest w' req' resp'
    | (false, req', resp', w') => (false, req', resp', w')

/-- `http_check_route_auth`: 0 when the request is authorized, else the status to
send. -/
def httpCheckRouteAuth (s : HttpServer ω) (authFlags : UInt32) (w : ω) (req : AxlHttpRequest) :
    Nat × AxlHttpRequest × ω :=
  if authFlags = axlRouteNoAuth then (0, req, w)
  else
    match s.authCb with
    | none => (401, req, w)
    | some cb =>
      match cb w req with
      | (false, _, req', w') => (401, req', w')
      | (true, info, req', w') =>
        if authFlags &&& axlRouteAdmin ≠ 0 ∧ info.role < axlRouteAdmin.toNat then (403, req', w')
        else (0, req', w')

/-- What `dispatch_request` answers. -/
inductive Reply (ω : Type) where
  | upgrade
  | rejected (resp : AxlHttpResponse)
  | error (status : Nat)
  | cached (entry : Entry ω) (resp : AxlHttpResponse)
  | handled (route : HttpRoute ω) (resp : AxlHttpResponse)

def buildRequest (conn : HttpConn) : AxlHttpRequest :=
  ⟨conn.method, conn.path, conn.query, conn.headers, conn.body, conn.clientAddr⟩

def initialResponse : AxlHttpResponse := ⟨200, none, none, []⟩

/-- `"upgrade"` and `"websocket"`. -/
def upgradeName : List UInt8 := [0x75, 0x70, 0x67, 0x72, 0x61, 0x64, 0x65]

def websocketName : List UInt8 := [0x77, 0x65, 0x62, 0x73, 0x6f, 0x63, 0x6b, 0x65, 0x74]

def wantsUpgrade (conn : HttpConn) : Bool :=
  match conn.headers.lookup upgradeName with
  | some v => equalsIgnoreCase v websocketName
  | none => false

/-- A failure is a 500 unless the callback chose another status. -/
def failed (resp : AxlHttpResponse) : AxlHttpResponse :=
  if resp.statusCode = 200 then { resp with statusCode := 500 } else resp

/-- The freshness test of a cache hit; the age is computed modulo 2^64. -/
def fresh (env : Env) (v : CachedResponse) : Bool :=
  v.ttlMs == axlCacheForever || env.lookupMs - v.timestampMs < v.ttlMs

def Cache.find (c : Cache ω) (key : List UInt8) : Option (Entry ω) :=
  c.entries.find? (·.key == key)

def Cache.remove (c : Cache ω) (key : List UInt8) : Cache ω :=
  { c with entries := c.entries.filter (·.key != key) }

/-- One request: what is answered, the cache after it, the entries evicted for it
and the world after it. -/
structure Outcome (ω : Type) where
  reply : Reply ω
  cache : Cache ω
  evicted : List (Entry ω)
  world : ω

/-- The part of `dispatch_request` behind the cache lookup. -/
def answer (s : HttpServer ω) (c : Cache ω) (w : ω) (conn : HttpConn) (req : AxlHttpRequest)
    (resp : AxlHttpResponse) (route : HttpRoute ω) (env : Env) : Outcome ω :=
  match httpCheckRouteAuth s route.authFlags w req with
  | (0, req', w') =>
    match route.handler with
    | some handler =>
      match handler w' req' resp with
      | (ok, resp', w'') =>
        let sent := if ok then resp' else failed resp'
        let (c', gone) := store s c conn route sent env
        ⟨.handled route sent, c', gone, w''⟩
    | none =>
      let sent := { resp with statusCode := 500 }
      let (c', gone) := store s c conn route sent env
      ⟨.handled route sent, c', gone, w'⟩
  | (status + 1, _, w') => ⟨.error (status + 1), c, [], w'⟩

/-- `dispatch_request`. -/
def dispatchRequest (s : HttpServer ω) (c : Cache ω) (w : ω) (conn : HttpConn) (env : Env) :
    Outcome ω :=
  if wantsUpgrade conn then ⟨.upgrade, c, [], w⟩
  else
    match runMiddleware s.middleware w (buildRequest conn) initialResponse with
    | (false, _, resp, w') => ⟨.rejected (failed resp), c, [], w'⟩
    | (true, req, resp, w') =>
      match findRoute s conn.method conn.path with
      | none => ⟨.error 404, c, [], w'⟩
      | some route =>
        match if s.caching then c.find (cacheKey conn) else none with
        | some e =>
          if fresh env e.value then
            let sent : AxlHttpResponse :=
              { resp with
                statusCode := e.value.statusCode
                contentType := some e.value.contentType
                body := some e.value.body }
            ⟨.cached e sent, c, [], w'⟩
          else answer s (c.remove (cacheKey conn)) w' conn req resp route env
        | none => answer s c w' conn req resp route env

/-! ## Runs -/

/-- The state in which a request is dispatched. -/
structure Visit (ω : Type) where
  cache : Cache ω
  world : ω
  conn : HttpConn
  env : Env

def Visit.outcome (s : HttpServer ω) (v : Visit ω) : Outcome ω :=
  dispatchRequest s v.cache v.world v.conn v.env

/-- The requests of a run, each with the state it meets. -/
def visits (s : HttpServer ω) : Cache ω → ω → List (HttpConn × Env) → List (Visit ω)
  | _, _, [] => []
  | c, w, (conn, env) :: rest =>
    let v : Visit ω := ⟨c, w, conn, env⟩
    v :: visits s (v.outcome s).cache (v.outcome s).world rest

variable {s : HttpServer ω} {c : Cache ω}

/-- An invariant of the cache that every dispatch keeps holds at every visit; a
dispatch may rely on a condition `P` of its visit. -/
theorem visits_invariant {Inv : Cache ω → Prop} {P : Visit ω → Prop}
    (hstep : ∀ v : Visit ω, P v → Inv v.cache → Inv (v.outcome s).cache) (hc : Inv c) {w : ω}
    {reqs : List (HttpConn × Env)} (hP : ∀ v ∈ visits s c w reqs, P v) :
    ∀ v ∈ visits s c w reqs, Inv v.cache := by
  induction reqs generalizing c w with
  | nil =>
    intro v hv
    cases hv
  | cons r rest ih =>
    obtain ⟨conn, env⟩ := r
    intro v hv
    rcases mem_cons.mp hv with rfl | hv
    · exact hc
    · refine ih (hstep ⟨c, w, conn, env⟩ (hP _ mem_cons_self) hc) ?_ v hv
      exact fun v' hv' => hP v' (mem_cons_of_mem _ hv')

/-! ## What one request does -/

/-- The entry that a request is served from the cache, if it gets that far. -/
def served (s : HttpServer ω) (v : Visit ω) : Option (Entry ω) :=
  if wantsUpgrade v.conn then none
  else
    match runMiddleware s.middleware v.world (buildRequest v.conn) initialResponse with
    | (false, _, _, _) => none
    | (true, _, _, _) =>
      match findRoute s v.conn.method v.conn.path with
      | none => none
      | some _ =>
        if s.caching then (v.cache.find (cacheKey v.conn)).filter (fresh v.env ·.value) else none

/-- Whether a request passes `http_check_route_auth` for some flags, when the
check is made where `dispatch_request` makes it: behind the middleware. -/
def admitted (s : HttpServer ω) (v : Visit ω) (authFlags : UInt32) : Bool :=
  match runMiddleware s.middleware v.world (buildRequest v.conn) initialResponse with
  | (false, _, _, _) => false
  | (true, req, _, w) => (httpCheckRouteAuth s authFlags w req).1 == 0

/-- The route whose handler produced the body that is sent. -/
def Reply.producer : Reply ω → Option (HttpRoute ω)
  | .cached e _ => some e.origin.route
  | .handled route _ => some route
  | _ => none

/-- Everything a handler can have been run for: the check came first. -/
theorem answer_reply (s : HttpServer ω) (c : Cache ω) (w : ω) (conn : HttpConn)
    (req : AxlHttpRequest) (resp : AxlHttpResponse) (route : HttpRoute ω) (env : Env) :
    (∃ status, (answer s c w conn req resp route env).reply = .error status ∧
      (answer s c w conn req resp route env).cache = c ∧
      (answer s c w conn req resp route env).evicted = []) ∨
    ∃ sent, (httpCheckRouteAuth s route.authFlags w req).1 = 0 ∧
      (answer s c w conn req resp route env).reply = .handled route sent ∧
      (answer s c w conn req resp route env).cache = (store s c conn route sent env).1 ∧
      (answer s c w conn req resp route env).evicted = (store s c conn route sent env).2 := by
  rcases hcheck : httpCheckRouteAuth s route.authFlags w req with ⟨status, req', w'⟩
  cases status with
  | succ status =>
    left
    refine ⟨status + 1, ?_, ?_, ?_⟩ <;> simp only [answer, hcheck]
  | zero =>
    right
    cases hhandler : route.handler with
    | none =>
      refine ⟨{ resp with statusCode := 500 }, rfl, ?_, ?_, ?_⟩ <;>
        simp only [answer, hcheck, hhandler]
    | some handler =>
      rcases hrun : handler w' req' resp with ⟨ok, resp', w''⟩
      refine ⟨if ok then resp' else failed resp', rfl, ?_, ?_, ?_⟩ <;>
        simp only [answer, hcheck, hhandler, hrun]

/-- The cache a request leaves to the part behind the lookup. -/
def looked (s : HttpServer ω) (v : Visit ω) : Cache ω :=
  if s.caching ∧ (v.cache.find (cacheKey v.conn)).isSome then v.cache.remove (cacheKey v.conn)
  else v.cache

/-- All a request can lead to: an answer that touches neither the cache nor a
handler, a served entry, or a handler's response behind the check. -/
inductive Leads (s : HttpServer ω) (v : Visit ω) : Prop where
  | plain (producer : (v.outcome s).reply.producer = none) (unserved : served s v = none)
      (cache : (v.outcome s).cache = v.cache ∨ (v.outcome s).cache = looked s v)
      (evicted : (v.outcome s).evicted = [])
  | served (e : Entry ω) (resp : AxlHttpResponse) (served : served s v = some e)
      (reply : (v.outcome s).reply = .cached e resp) (body : resp.body = some e.value.body)
      (caching : s.caching = true) (found : v.cache.find (cacheKey v.conn) = some e)
      (isFresh : fresh v.env e.value = true) (cache : (v.outcome s).cache = v.cache)
      (evicted : (v.outcome s).evicted = [])
  | handled (route : HttpRoute ω) (sent : AxlHttpResponse) (unserved : served s v = none)
      (reply : (v.outcome s).reply = .handled route sent)
      (passed : admitted s v route.authFlags = true)
      (cache : (v.outcome s).cache = (store s (looked s v) v.conn route sent v.env).1)
      (evicted : (v.outcome s).evicted = (store s (looked s v) v.conn route sent v.env).2)

theorem leads (s : HttpServer ω) (v : Visit ω) : Leads s v := by
  by_cases hup : wantsUpgrade v.conn = true
  · refine .plain ?_ ?_ (.inl ?_) ?_ <;>
      simp [Visit.outcome, dispatchRequest, served, hup, Reply.producer]
  rcases hmw : runMiddleware s.middleware v.world (buildRequest v.conn) initialResponse with
    ⟨ok, req, resp, w'⟩
  cases ok with
  | false =>
    refine .plain ?_ ?_ (.inl ?_) ?_ <;>
      simp [Visit.outcome, dispatchRequest, served, hup, hmw, Reply.producer]
  | true =>
    cases hroute : findRoute s v.conn.method v.conn.path with
    | none =>
      refine .plain ?_ ?_ (.inl ?_) ?_ <;>
        simp [Visit.outcome, dispatchRequest, served, hup, hmw, hroute, Reply.producer]
    | some route =>
      -- from here on only the lookup decides between an entry and the handler
      have hanswer : ∀ c, (v.outcome s) = answer s c w' v.conn req resp route v.env →
          c = looked s v → Http.served s v = none → Leads s v := by
        intro c hout hc hserved
        rcases answer_reply s c w' v.conn req resp route v.env with
          ⟨status, hr, hcache, hev⟩ | ⟨sent, hcheck, hr, hcache, hev⟩
        · refine .plain ?_ hserved (.inr ?_) ?_
          · rw [hout, hr]
            rfl
          · rw [hout, hcache, hc]
          · rw [hout, hev]
        · refine .handled route sent hserved ?_ ?_ ?_ ?_
          · rw [hout, hr]
          · simp [admitted, hmw, hcheck]
          · rw [hout, hcache, hc]
          · rw [hout, hev, hc]
      cases hfind : (if s.caching then v.cache.find (cacheKey v.conn) else none) with
      | none =>
        refine hanswer v.cache ?_ ?_ ?_
        · simp [Visit.outcome, dispatchRequest, hup, hmw, hroute, hfind]
        · unfold looked
          cases hcach : s.caching <;> simp_all
        · cases hcach : s.caching <;> simp_all [served]
      | some e =>
        obtain ⟨hcach, hfind'⟩ : s.caching = true ∧ v.cache.find (cacheKey v.conn) = some e := by
          cases hcach : s.caching <;> simp_all
        by_cases hfresh : fresh v.env e.value = true
        · have hout : v.outcome s = ⟨.cached e { resp with
                statusCode := e.value.statusCode
                contentType := some e.value.contentType
                body := some e.value.body }, v.cache, [], w'⟩ := by
            simp [Visit.outcome, dispatchRequest, hup, hmw, hroute, hcach, hfind', hfresh]
          refine .served e _ ?_ (by rw [hout]) rfl hcach hfind' hfresh (by rw [hout]) (by rw [hout])
          simp [Http.served, hup, hmw, hroute, hcach, hfind', hfresh]
        · refine hanswer (v.cache.remove (cacheKey v.conn)) ?_ ?_ ?_
          · simp [Visit.outcome, dispatchRequest, hup, hmw, hroute, hcach, hfind', hfresh]
          · simp [looked, hcach, hfind']
          · simp [served, hup, hmw, hroute, hcach, hfind', hfresh]

/-! ## Protected responses -/

/-- A body that a protected route's handler produced is only sent to a request
that passes the check for this route. -/
def Protected (s : HttpServer ω) (v : Visit ω) : Prop :=
  ∀ route, (v.outcome s).reply.producer = some route → route.authFlags ≠ axlRouteNoAuth →
    admitted s v route.authFlags = true

/-- The request is served no entry of a protected route whose check it fails. -/
def Permitted (s : HttpServer ω) (v : Visit ω) : Prop :=
  ∀ e, served s v = some e → e.origin.route.authFlags ≠ axlRouteNoAuth →
    admitted s v e.origin.route.authFlags = true

theorem protected_iff_permitted (s : HttpServer ω) (v : Visit ω) :
    Protected s v ↔ Permitted s v := by
  cases leads s v with
  | plain producer unserved cache evicted =>
    constructor
    · intro _ e he
      rw [unserved] at he
      cases he
    · intro _ route hroute
      rw [producer] at hroute
      cases hroute
  | served e resp served reply body caching found isFresh cache evicted =>
    unfold Protected Permitted
    rw [served, reply]
    simp [Reply.producer]
  | handled route sent unserved reply passed cache evicted =>
    constructor
    · intro _ e he
      rw [unserved] at he
      cases he
    · intro _ route' hroute' _
      rw [reply] at hroute'
      obtain rfl := Option.some.inj hroute'
      exact passed

/-- Protected responses stay protected along a run exactly if the cache hands
none of them to a request that may not see it: the handlers' own answers always
come behind the check. -/
theorem visits_protected_iff (s : HttpServer ω) (w : ω) (reqs : List (HttpConn × Env)) :
    (∀ v ∈ visits s Cache.empty w reqs, Protected s v) ↔
      ∀ v ∈ visits s Cache.empty w reqs, Permitted s v := by
  constructor
  · intro h v hv
    exact (protected_iff_permitted s v).mp (h v hv)
  · intro h v hv
    exact (protected_iff_permitted s v).mpr (h v hv)

/-- `GET /a` from the client at address `addr`. -/
def getFrom (addr : List UInt8) : HttpConn where
  method := [0x47, 0x45, 0x54]
  path := [0x2f, 0x61]
  query := none
  space_not_mem_method := by decide
  space_not_mem_path := by decide
  questionMark_not_mem_path := by decide
  headers := []
  body := []
  clientAddr := addr

/-- One protected route `GET /a`; the callback knows the client at address 1. -/
def guardedServer : HttpServer Unit where
  exactRoutes := [([0x47, 0x45, 0x54, 0x20, 0x2f, 0x61],
    ⟨some fun w _ resp => (true, { resp with body := some [0x73] }, w), 1⟩)]
  prefixRoutes := []
  middleware := []
  authCb := some fun w req => (req.clientAddr == [1], ⟨none, 1⟩, req, w)
  caching := true
  cacheMax := 4
  cacheTtlMs := 1000
  routeTtls := []
  cacheMax_pos := by decide

/-- The client at address 1 fetches the protected page; a stranger gets it from
the cache. -/
theorem stranger_served_from_cache :
    ¬ ∀ v ∈ visits guardedServer Cache.empty ()
      [(getFrom [1], ⟨0, 0, true, true⟩), (getFrom [2], ⟨5, 5, true, true⟩)],
        Protected guardedServer v := by
  intro h
  have hsecond := (protected_iff_permitted _ _).mp (h _ (mem_cons_of_mem _ mem_cons_self))
  have := hsecond _ rfl (by decide)
  revert this
  decide

/-! ## Keys -/

/-- Two requests for the same thing: the same method up to case, path and query
string; no query string is an empty one. -/
structure SameRequest (a b : HttpConn) : Prop where
  method : a.method.map toUpper = b.method.map toUpper
  path : a.path = b.path
  query : a.query.getD [] = b.query.getD []

/-- Neither buffer cuts the key of the request. -/
structure Uncut (conn : HttpConn) : Prop where
  method : conn.method.length ≤ 15
  key : (fullKey conn).length ≤ 511

/-- A list is split in one way at the first occurrence of a byte. -/
theorem split_at_first {b : UInt8} {xs xs' ys ys' : List UInt8} (hx : b ∉ xs) (hx' : b ∉ xs')
    (h : xs ++ b :: ys = xs' ++ b :: ys') : xs = xs' ∧ ys = ys' := by
  induction xs generalizing xs' with
  | nil =>
    cases xs' with
    | nil => exact ⟨rfl, (List.cons.inj h).2⟩
    | cons x' xs' =>
      obtain ⟨rfl, -⟩ := List.cons.inj h
      exact absurd mem_cons_self hx'
  | cons x xs ih =>
    cases xs' with
    | nil =>
      obtain ⟨rfl, -⟩ := List.cons.inj h
      exact absurd mem_cons_self hx
    | cons x' xs' =>
      obtain ⟨rfl, htl⟩ := List.cons.inj h
      obtain ⟨rfl, rfl⟩ := ih (fun hm => hx (mem_cons_of_mem _ hm))
        (fun hm => hx' (mem_cons_of_mem _ hm)) htl
      exact ⟨rfl, rfl⟩

private theorem space_not_mem_map_toUpper {method : List UInt8} (h : space ∉ method) :
    space ∉ method.map toUpper := by
  intro hm
  obtain ⟨b, hb, hbs⟩ := mem_map.mp hm
  refine toUpper_ne_space ?_ hbs
  rintro rfl
  exact h hb

theorem Uncut.uppercaseMethod_eq {conn : HttpConn} (h : Uncut conn) :
    uppercaseMethod conn.method = conn.method.map toUpper :=
  take_of_length_le (by rw [length_map]; exact h.method)

theorem Uncut.cacheKey_eq {conn : HttpConn} (h : Uncut conn) : cacheKey conn = fullKey conn :=
  take_of_length_le h.key

/-- The query part of a key. -/
def querySuffix : List UInt8 → List UInt8
  | [] => []
  | q :: qs => questionMark :: q :: qs

theorem fullKey_eq (conn : HttpConn) : fullKey conn =
    uppercaseMethod conn.method ++ space :: (conn.path ++ querySuffix (conn.query.getD [])) := by
  unfold fullKey
  cases hq : conn.query with
  | none => rfl
  | some q => cases q <;> rfl

/-- Path and query part of a key are told apart by the first `?`. -/
theorem path_query_inj {p p' q q' : List UInt8} (hp : questionMark ∉ p) (hp' : questionMark ∉ p')
    (h : p ++ querySuffix q = p' ++ querySuffix q') : p = p' ∧ q = q' := by
  cases q with
  | nil =>
    cases q' with
    | nil => exact ⟨by simpa [querySuffix] using h, rfl⟩
    | cons b qs =>
      simp only [querySuffix, append_nil] at h
      rw [h] at hp
      simp at hp
  | cons b qs =>
    cases q' with
    | nil =>
      simp only [querySuffix, append_nil] at h
      rw [← h] at hp'
      simp at hp'
    | cons b' qs' => exact split_at_first hp hp' h

/-- Uncut keys are only equal for equal requests. -/
theorem sameRequest_of_cacheKey_eq {a b : HttpConn} (ha : Uncut a) (hb : Uncut b)
    (h : cacheKey a = cacheKey b) : SameRequest a b := by
  rw [ha.cacheKey_eq, hb.cacheKey_eq, fullKey_eq, fullKey_eq, ha.uppercaseMethod_eq,
    hb.uppercaseMethod_eq] at h
  obtain ⟨hmethod, hrest⟩ := split_at_first (space_not_mem_map_toUpper a.space_not_mem_method)
    (space_not_mem_map_toUpper b.space_not_mem_method) h
  obtain ⟨hpath, hquery⟩ := path_query_inj a.questionMark_not_mem_path
    b.questionMark_not_mem_path hrest
  exact ⟨hmethod, hpath, hquery⟩

/-! ## Stores and evictions -/

/-- The entries in the order of their sequence numbers are in the order in which
they were stored. -/
structure Sequenced (entries : List (Entry ω)) : Prop where
  seq : ∀ e ∈ entries, e.value.insertSeq.toNat = e.origin.born + 1
  nodup : (entries.map (·.origin.born)).Nodup
  keys : (entries.map (·.key)).Nodup

theorem Sequenced.sublist {l l' : List (Entry ω)} (h : Sequenced l) (hl : l'.Sublist l) :
    Sequenced l' :=
  ⟨fun e he => h.seq e (hl.mem he), h.nodup.sublist (hl.map _), h.keys.sublist (hl.map _)⟩

/-- One comparison of `find_oldest_cb`. -/
private theorem findOldest_foldl (entries : List (Entry ω)) (b : Entry ω) :
    ∃ o, entries.foldl (fun best e =>
        match best with
        | none => some e
        | some b => if e.value.insertSeq < b.value.insertSeq then some e else some b) (some b)
        = some o ∧
      (o = b ∨ o ∈ entries) ∧ o.value.insertSeq ≤ b.value.insertSeq ∧
      ∀ e ∈ entries, o.value.insertSeq ≤ e.value.insertSeq := by
  induction entries generalizing b with
  | nil => exact ⟨b, rfl, .inl rfl, UInt64.le_refl _, by simp⟩
  | cons e rest ih =>
    rw [foldl_cons]
    by_cases hlt : e.value.insertSeq < b.value.insertSeq
    · simp only [hlt, if_true]
      obtain ⟨o, ho, hmem, hle, hall⟩ := ih e
      refine ⟨o, ho, .inr ?_, UInt64.le_trans hle (UInt64.le_of_lt hlt), ?_⟩
      · rcases hmem with rfl | hmem
        · exact mem_cons_self
        · exact mem_cons_of_mem _ hmem
      · intro e' he'
        rcases mem_cons.mp he' with rfl | he'
        · exact hle
        · exact hall e' he'
    · simp only [hlt, if_false]
      obtain ⟨o, ho, hmem, hle, hall⟩ := ih b
      refine ⟨o, ho, ?_, hle, ?_⟩
      · rcases hmem with rfl | hmem
        · exact .inl rfl
        · exact .inr (mem_cons_of_mem _ hmem)
      · intro e' he'
        rcases mem_cons.mp he' with rfl | he'
        · exact UInt64.le_trans hle (UInt64.not_lt.mp hlt)
        · exact hall e' he'

variable {entries : List (Entry ω)}

theorem findOldest_spec (hne : entries ≠ []) :
    ∃ o ∈ entries, findOldest entries = some o ∧
      ∀ e ∈ entries, o.value.insertSeq ≤ e.value.insertSeq := by
  cases entries with
  | nil => exact absurd rfl hne
  | cons e rest =>
    obtain ⟨o, ho, hmem, hle, hall⟩ := findOldest_foldl rest e
    refine ⟨o, ?_, ho, ?_⟩
    · rcases hmem with rfl | hmem
      · exact mem_cons_self
      · exact mem_cons_of_mem _ hmem
    · intro e' he'
      rcases mem_cons.mp he' with rfl | he'
      · exact hle
      · exact hall e' he'

/-- An eviction removes one entry, the one stored first. -/
theorem evictOldest_spec (h : Sequenced entries) (hne : entries ≠ []) :
    ∃ o ∈ entries, evictOldest entries = (entries.filter (·.key != o.key), [o]) ∧
      (entries.filter (·.key != o.key)).length < entries.length ∧
      ∀ e ∈ entries.filter (·.key != o.key), o.origin.born < e.origin.born := by
  obtain ⟨o, ho, hfind, hmin⟩ := findOldest_spec hne
  refine ⟨o, ho, by rw [evictOldest, hfind], ?_, ?_⟩
  · rw [length_filter_lt_length_iff_exists]
    exact ⟨o, ho, by simp⟩
  · intro e he
    obtain ⟨he, hkey⟩ := mem_filter.mp he
    have hle := UInt64.le_iff_toNat_le.mp (hmin e he)
    rw [h.seq o ho, h.seq e he] at hle
    have hne' : o.origin.born ≠ e.origin.born := by
      intro heq
      have : o = e := inj_on_of_nodup_map h.nodup ho he heq
      subst this
      simp at hkey
    omega

theorem makeRoom_spec {max : Nat} (key : List UInt8) (hmax : 0 < max) {fuel : Nat}
    (h : Sequenced entries) (hfuel : entries.length ≤ fuel) :
    (makeRoom max key fuel entries).1.Sublist entries ∧
    ((makeRoom max key fuel entries).1.length < max ∨
      ∃ e ∈ (makeRoom max key fuel entries).1, e.key = key) ∧
    (∀ e ∈ (makeRoom max key fuel entries).2, e ∈ entries) ∧
    ∀ e ∈ (makeRoom max key fuel entries).2, ∀ e' ∈ (makeRoom max key fuel entries).1,
      e.origin.born < e'.origin.born := by
  induction fuel generalizing entries with
  | zero =>
    obtain rfl := length_eq_zero_iff.mp (Nat.le_zero.mp hfuel)
    refine ⟨List.Sublist.refl _, .inl hmax, ?_, ?_⟩ <;> simp [makeRoom]
  | succ fuel ih =>
    by_cases hfull : max ≤ entries.length ∧ entries.all (·.key != key) = true
    · have hne : entries ≠ [] := by
        rintro rfl
        simp at hfull
        omega
      obtain ⟨o, ho, hev, hlt, hold⟩ := evictOldest_spec h hne
      obtain ⟨hsub, hroom, hmem, hord⟩ :=
        ih (h.sublist filter_sublist) (Nat.lt_succ_iff.mp (Nat.lt_of_lt_of_le hlt hfuel))
      simp only [makeRoom, if_pos hfull, hev]
      refine ⟨hsub.trans filter_sublist, hroom, ?_, ?_⟩
      · rintro e he
        rcases mem_append.mp he with he | he
        · rw [mem_singleton.mp he]
          exact ho
        · exact (mem_filter.mp (hmem e he)).1
      · intro e he e' he'
        rcases mem_append.mp he with he | he
        · rw [mem_singleton.mp he]
          exact hold e' (hsub.mem he')
        · exact hord e he e' he'
    · simp only [makeRoom, if_neg hfull]
      refine ⟨List.Sublist.refl _, ?_, by simp, by simp⟩
      by_cases hlen : max ≤ entries.length
      · right
        simp only [hlen, true_and, all_eq_true, not_forall] at hfull
        obtain ⟨e, he, hkey⟩ := hfull
        exact ⟨e, he, by simpa using hkey⟩
      · exact .inl (Nat.lt_of_not_le hlen)

/-- What `store` can do: nothing, or room is made and, if the table takes it, an
entry for this response added. -/
theorem store_cases (s : HttpServer ω) (c : Cache ω) (conn : HttpConn) (route : HttpRoute ω)
    (resp : AxlHttpResponse) (env : Env) :
    store s c conn route resp env = (c, []) ∨
    ∃ entry : Entry ω, entry.key = cacheKey conn ∧ entry.origin = ⟨conn, route, c.stores⟩ ∧
      resp.body = some entry.value.body ∧ entry.value.timestampMs = env.storeMs ∧
      entry.value.insertSeq = c.cacheSeq + 1 ∧ entry.value.ttlMs = ttlFor s conn.path ∧
      store s c conn route resp env =
        (⟨if env.inserted then
            (makeRoom s.cacheMax entry.key c.entries.length c.entries).1.filter
              (·.key != entry.key) ++ [entry]
          else (makeRoom s.cacheMax entry.key c.entries.length c.entries).1,
          c.cacheSeq + 1, c.stores + 1⟩,
         (makeRoom s.cacheMax entry.key c.entries.length c.entries).2) := by
  cases hbody : resp.body with
  | none => exact .inl (by simp [store, hbody])
  | some body =>
    cases body with
    | nil => exact .inl (by simp [store, hbody])
    | cons b bs =>
      by_cases hok : s.caching ∧ 200 ≤ resp.statusCode ∧ resp.statusCode < 300 ∧ env.allocated
      · right
        refine ⟨⟨cacheKey conn, ⟨b :: bs, resp.statusCode, (resp.contentType.getD []).take 63,
          env.storeMs, c.cacheSeq + 1, ttlFor s conn.path⟩, ⟨conn, route, c.stores⟩⟩,
          rfl, rfl, rfl, rfl, rfl, rfl, ?_⟩
        simp only [store, hbody, if_pos hok]
      · exact .inl (by simp only [store, hbody, if_neg hok])

/-- The time to live that the configuration asks for: the path's own, or the
server's. -/
def appliedTtl (s : HttpServer ω) (path : List UInt8) : UInt64 :=
  (s.routeTtls.lookup path).getD s.cacheTtlMs

/-- The requests for which the cache can tell what it stores: no buffer cuts the
key, the path has no time to live of 0, and the counter does not wrap. -/
structure Regular (s : HttpServer ω) (v : Visit ω) : Prop where
  uncut : Uncut v.conn
  ttl : s.routeTtls.lookup v.conn.path ≠ some 0
  counter : v.cache.cacheSeq.toNat + 1 < 2 ^ 64

variable {v : Visit ω}

theorem Regular.ttlFor_eq (h : Regular s v) :
    ttlFor s v.conn.path = appliedTtl s v.conn.path := by
  have hne := h.ttl
  unfold ttlFor appliedTtl
  cases hl : s.routeTtls.lookup v.conn.path with
  | none => rfl
  | some ttl =>
    rw [hl] at hne
    have : ttl ≠ 0 := fun h0 => hne (congrArg some h0)
    simp [this]

/-- The invariant of the cache. -/
structure Sound (s : HttpServer ω) (c : Cache ω) : Prop where
  sequenced : Sequenced c.entries
  bound : c.entries.length ≤ s.cacheMax
  counter : c.cacheSeq.toNat = c.stores
  past : ∀ e ∈ c.entries, e.origin.born < c.stores
  key : ∀ e ∈ c.entries, e.key = cacheKey e.origin.conn
  uncut : ∀ e ∈ c.entries, Uncut e.origin.conn
  ttl : ∀ e ∈ c.entries, e.value.ttlMs = appliedTtl s e.origin.conn.path

theorem sound_empty (s : HttpServer ω) : Sound s Cache.empty where
  sequenced := ⟨by simp [Cache.empty], nodup_nil, nodup_nil⟩
  bound := Nat.zero_le _
  counter := rfl
  past := by simp [Cache.empty]
  key := by simp [Cache.empty]
  uncut := by simp [Cache.empty]
  ttl := by simp [Cache.empty]

theorem Sound.remove (h : Sound s c) (key : List UInt8) :
    Sound s (c.remove key) where
  sequenced := h.sequenced.sublist filter_sublist
  bound := Nat.le_trans filter_sublist.length_le h.bound
  counter := h.counter
  past e he := h.past e (mem_filter.mp he).1
  key e he := h.key e (mem_filter.mp he).1
  uncut e he := h.uncut e (mem_filter.mp he).1
  ttl e he := h.ttl e (mem_filter.mp he).1

theorem Sound.looked (h : Sound s v.cache) :
    Sound s (looked s v) := by
  unfold Http.looked
  split
  · exact h.remove _
  · exact h

theorem looked_cacheSeq (s : HttpServer ω) (v : Visit ω) :
    (looked s v).cacheSeq = v.cache.cacheSeq := by
  unfold looked
  split <;> rfl

/-- Adding the entry stored last keeps the sequence. -/
theorem Sequenced.snoc {l : List (Entry ω)} (h : Sequenced l) {e : Entry ω}
    (hseq : e.value.insertSeq.toNat = e.origin.born + 1)
    (hborn : ∀ e' ∈ l, e'.origin.born < e.origin.born) (hkey : ∀ e' ∈ l, e'.key ≠ e.key) :
    Sequenced (l ++ [e]) := by
  refine ⟨?_, ?_, ?_⟩
  · intro e' he'
    rcases mem_append.mp he' with he' | he'
    · exact h.seq e' he'
    · rw [mem_singleton.mp he']
      exact hseq
  · rw [map_append, nodup_append]
    refine ⟨h.nodup, by simp, ?_⟩
    intro a ha b hb
    obtain ⟨e', he', rfl⟩ := mem_map.mp ha
    obtain rfl : b = e.origin.born := by simpa using hb
    exact Nat.ne_of_lt (hborn e' he')
  · rw [map_append, nodup_append]
    refine ⟨h.keys, by simp, ?_⟩
    intro a ha b hb
    obtain ⟨e', he', rfl⟩ := mem_map.mp ha
    obtain rfl : b = e.key := by simpa using hb
    exact hkey e' he'

/-- Storing the response to a regular request keeps the invariant; what is
evicted for it was stored before all that stays. -/
theorem Sound.store (h : Sound s c) (hv : Regular s v) (hseq : c.cacheSeq = v.cache.cacheSeq)
    (route : HttpRoute ω) (sent : AxlHttpResponse) :
    Sound s (store s c v.conn route sent v.env).1 ∧
      ∀ e ∈ (Http.store s c v.conn route sent v.env).2,
        ∀ e' ∈ (Http.store s c v.conn route sent v.env).1.entries,
          e.origin.born < e'.origin.born := by
  rcases store_cases s c v.conn route sent v.env with
    hnone | ⟨entry, hkey, horigin, -, -, hins, httl, hst⟩
  · rw [hnone]
    exact ⟨h, by simp⟩
  obtain ⟨hsub, hroom, hgone, hord⟩ :=
    makeRoom_spec entry.key s.cacheMax_pos h.sequenced (Nat.le_refl _)
  rw [hst]
  generalize makeRoom s.cacheMax entry.key c.entries.length c.entries = room at *
  have hcount : (c.cacheSeq + 1).toNat = c.stores + 1 := by
    have hlt := hv.counter
    rw [← hseq] at hlt
    rw [UInt64.toNat_add, h.counter] at *
    exact Nat.mod_eq_of_lt hlt
  have hborn : entry.origin.born = c.stores := by rw [horigin]
  cases hi : v.env.inserted with
  | false =>
    simp only [Bool.false_eq_true, if_false]
    refine ⟨⟨h.sequenced.sublist hsub, Nat.le_trans hsub.length_le h.bound, hcount, ?_, ?_, ?_, ?_⟩,
      hord⟩
    · exact fun e he => Nat.lt_succ_of_lt (h.past e (hsub.mem he))
    · exact fun e he => h.key e (hsub.mem he)
    · exact fun e he => h.uncut e (hsub.mem he)
    · exact fun e he => h.ttl e (hsub.mem he)
  | true =>
    simp only [if_true]
    have hsub' : (room.1.filter (·.key != entry.key)).Sublist c.entries :=
      filter_sublist.trans hsub
    have hnew : ∀ {P : Entry ω → Prop}, (∀ e ∈ c.entries, P e) → P entry →
        ∀ e ∈ room.1.filter (·.key != entry.key) ++ [entry], P e := by
      intro P hold hentry e he
      rcases mem_append.mp he with he | he
      · exact hold e (hsub'.mem he)
      · rw [mem_singleton.mp he]
        exact hentry
    refine ⟨⟨?_, ?_, hcount, ?_, ?_, ?_, ?_⟩, ?_⟩
    · refine (h.sequenced.sublist hsub').snoc ?_ ?_ ?_
      · rw [hins, hcount, hborn]
      · intro e he
        rw [hborn]
        exact h.past e (hsub'.mem he)
      · intro e he
        simpa using (mem_filter.mp he).2
    · rw [length_append, length_singleton]
      -- either there was room, or the old entry of the key has gone
      rcases hroom with hlt | ⟨e, he, hek⟩
      · have := (filter_sublist (p := (·.key != entry.key)) (l := room.1)).length_le
        omega
      · have hlt : (room.1.filter (·.key != entry.key)).length < room.1.length := by
          rw [length_filter_lt_length_iff_exists]
          exact ⟨e, he, by simp [hek]⟩
        have := Nat.le_trans hsub.length_le h.bound
        omega
    · refine hnew (fun e he => Nat.lt_succ_of_lt (h.past e he)) ?_
      rw [hborn]
      exact Nat.lt_succ_self _
    · exact hnew h.key (by rw [hkey, horigin])
    · exact hnew h.uncut (by rw [horigin]; exact hv.uncut)
    · exact hnew h.ttl (by rw [httl, horigin]; exact hv.ttlFor_eq)
    · intro e he e' he'
      rcases mem_append.mp he' with he' | he'
      · exact hord e he e' (mem_filter.mp he').1
      · rw [mem_singleton.mp he', hborn]
        exact h.past e (hgone e he)

/-- One regular request keeps the invariant and evicts in order. -/
theorem Sound.outcome (h : Sound s v.cache) (hv : Regular s v) :
    Sound s (v.outcome s).cache ∧
      ∀ e ∈ (v.outcome s).evicted, ∀ e' ∈ (v.outcome s).cache.entries,
        e.origin.born < e'.origin.born := by
  cases leads s v with
  | plain producer unserved cache evicted =>
    rw [evicted]
    refine ⟨?_, by simp⟩
    rcases cache with hc | hc
    · rw [hc]
      exact h
    · rw [hc]
      exact h.looked
  | served e resp served reply body caching found isFresh cache evicted =>
    rw [cache, evicted]
    exact ⟨h, by simp⟩
  | handled route sent unserved reply passed cache evicted =>
    rw [cache, evicted]
    exact h.looked.store hv (looked_cacheSeq s v) route sent

/-! ## The cache along a run -/

/-- The entry was stored at this visit, from the response of its handler. -/
structure Produced (s : HttpServer ω) (v : Visit ω) (e : Entry ω) : Prop where
  conn : e.origin.conn = v.conn
  time : e.value.timestampMs = v.env.storeMs
  reply : ∃ sent, (v.outcome s).reply = .handled e.origin.route sent ∧
    sent.body = some e.value.body

/-- An entry in the cache after a request was there before or comes from this
request. -/
theorem mem_outcome_cache {e : Entry ω} (he : e ∈ (v.outcome s).cache.entries) :
    e ∈ v.cache.entries ∨ Produced s v e := by
  have hlooked : ∀ {e}, e ∈ (looked s v).entries → e ∈ v.cache.entries := by
    intro e he
    unfold looked at he
    split at he
    · exact (mem_filter.mp he).1
    · exact he
  cases leads s v with
  | plain producer unserved cache evicted =>
    left
    rcases cache with hc | hc <;> rw [hc] at he
    · exact he
    · exact hlooked he
  | served e' resp served reply body caching found isFresh cache evicted =>
    rw [cache] at he
    exact .inl he
  | handled route sent unserved reply passed cache evicted =>
    rw [cache] at he
    have hroom : ∀ {key n e}, e ∈ (makeRoom s.cacheMax key n (looked s v).entries).1 →
        e ∈ (looked s v).entries := by
      intro key n e
      generalize (looked s v).entries = l
      induction n generalizing l with
      | zero => exact id
      | succ n ih =>
        intro he
        simp only [makeRoom] at he
        split at he
        · have hkept : (evictOldest l).1.Sublist l := by
            unfold evictOldest
            split
            · exact filter_sublist
            · exact List.Sublist.refl _
          exact hkept.mem (ih _ he)
        · exact he
    rcases store_cases s (looked s v) v.conn route sent v.env with
      hnone | ⟨entry, -, horigin, hbody, htime, -, -, hst⟩
    · rw [hnone] at he
      exact .inl (hlooked he)
    · rw [hst] at he
      dsimp only at he
      split at he
      · rcases mem_append.mp he with he | he
        · exact .inl (hlooked (hroom (mem_filter.mp he).1))
        · rw [mem_singleton] at he
          subst he
          right
          refine ⟨by rw [horigin], htime, sent, ?_, hbody⟩
          rw [reply, horigin]
      · exact .inl (hlooked (hroom he))

/-- Along a run every entry in the cache comes from an earlier request. -/
theorem visits_produced {w : ω} {reqs : List (HttpConn × Env)} {pre post : List (Visit ω)}
    (hv : visits s c w reqs = pre ++ v :: post) {e : Entry ω} (he : e ∈ v.cache.entries) :
    e ∈ c.entries ∨ ∃ v' ∈ pre, Produced s v' e := by
  induction reqs generalizing c w pre with
  | nil =>
    rw [visits] at hv
    simp at hv
  | cons r rest ih =>
    obtain ⟨conn, env⟩ := r
    rw [visits] at hv
    cases pre with
    | nil =>
      obtain ⟨rfl, -⟩ := List.cons.inj hv
      exact .inl he
    | cons v₀ pre =>
      obtain ⟨rfl, htl⟩ := List.cons.inj hv
      rcases ih htl with hmem | ⟨v', hv', hprod⟩
      · rcases mem_outcome_cache hmem with hmem | hprod
        · exact .inl hmem
        · exact .inr ⟨_, mem_cons_self, hprod⟩
      · exact .inr ⟨v', mem_cons_of_mem _ hv', hprod⟩

/-- The response stored at `v'` is within its time to live at `v`; a clock that
runs backwards makes it younger. -/
def Young (s : HttpServer ω) (v' v : Visit ω) : Prop :=
  appliedTtl s v'.conn.path = axlCacheForever ∨
    (v.env.lookupMs.toNat : Int) - v'.env.storeMs.toNat < (appliedTtl s v'.conn.path).toNat

/-- What the cache promises at a visit, after the visits `pre`: it only answers
with the response to an earlier request for the same thing that is young enough,
it stays within its bound, and it evicts what was stored first. -/
structure Faithful (s : HttpServer ω) (pre : List (Visit ω)) (v : Visit ω) : Prop where
  cached : ∀ e resp, (v.outcome s).reply = .cached e resp →
    resp.body = some e.value.body ∧
      ∃ v' ∈ pre, Produced s v' e ∧ SameRequest v'.conn v.conn ∧ Young s v' v
  bound : (v.outcome s).cache.entries.length ≤ s.cacheMax
  order : ∀ e ∈ (v.outcome s).evicted, ∀ e' ∈ (v.outcome s).cache.entries,
    e.origin.born < e'.origin.born

theorem young_of_fresh {v' : Visit ω} {e : CachedResponse} (h : fresh v.env e = true)
    (httl : e.ttlMs = appliedTtl s v'.conn.path) (htime : e.timestampMs = v'.env.storeMs) :
    Young s v' v := by
  unfold fresh at h
  rw [Bool.or_eq_true, beq_iff_eq, decide_eq_true_eq, httl, htime] at h
  rcases h with h | h
  · exact .inl h
  · right
    have hlt := UInt64.lt_iff_toNat_lt.mp h
    rw [UInt64.toNat_sub] at hlt
    have h₁ := v.env.lookupMs.toNat_lt
    have h₂ := v'.env.storeMs.toNat_lt
    omega

/-- Along every run of regular requests the cache keeps its promises. -/
theorem visits_faithful (s : HttpServer ω) (w : ω) (reqs : List (HttpConn × Env))
    (h : ∀ v ∈ visits s Cache.empty w reqs, Regular s v) {pre post : List (Visit ω)}
    {v : Visit ω} (hv : visits s Cache.empty w reqs = pre ++ v :: post) : Faithful s pre v := by
  have hmem : v ∈ visits s Cache.empty w reqs := by
    rw [hv]
    simp
  have hsound : Sound s v.cache :=
    visits_invariant (fun v hreg hs => (hs.outcome hreg).1) (sound_empty s) h v hmem
  obtain ⟨hafter, hord⟩ := hsound.outcome (h v hmem)
  refine ⟨?_, hafter.bound, hord⟩
  intro e resp hreply
  cases leads s v with
  | plain producer unserved cache evicted =>
    rw [hreply] at producer
    cases producer
  | handled route sent unserved reply passed cache evicted =>
    rw [hreply] at reply
    cases reply
  | served e' resp' served reply body caching found isFresh cache evicted =>
    rw [hreply] at reply
    obtain ⟨rfl, rfl⟩ := Reply.cached.inj reply
    have he : e ∈ v.cache.entries := mem_of_find?_eq_some found
    have hkey : e.key = cacheKey v.conn := by simpa using find?_some found
    rcases visits_produced hv he with hnil | ⟨v', hv', hprod⟩
    · cases hnil
    · refine ⟨body, v', hv', hprod, ?_, ?_⟩
      · rw [← hprod.conn]
        refine sameRequest_of_cacheKey_eq (hsound.uncut e he) (h v hmem).uncut ?_
        rw [← hsound.key e he, hkey]
      · refine young_of_fresh isFresh ?_ hprod.time
        rw [← hprod.conn]
        exact hsound.ttl e he

/-- The client at address 1 fetches its page twice, the second time from the
cache. -/
theorem visits_faithful_twice :
    Faithful guardedServer [⟨Cache.empty, (), getFrom [1], ⟨0, 0, true, true⟩⟩]
        ⟨(Visit.outcome guardedServer ⟨Cache.empty, (), getFrom [1], ⟨0, 0, true, true⟩⟩).cache, (),
          getFrom [1], ⟨5, 5, true, true⟩⟩ := by
  refine visits_faithful guardedServer () [(getFrom [1], ⟨0, 0, true, true⟩),
    (getFrom [1], ⟨5, 5, true, true⟩)] ?_ rfl
  intro v hv
  simp only [visits, mem_cons, not_mem_nil, or_false] at hv
  rcases hv with rfl | rfl
  · exact ⟨⟨by decide, by decide⟩, by decide, by decide⟩
  · exact ⟨⟨by decide, by decide⟩, by decide, by decide⟩

/-- A request for `/a` with a method of 16 bytes: 15 times `A` and one more. -/
def longMethod (last : UInt8) (h : space ∉ List.replicate 15 0x41 ++ [last]) : HttpConn where
  method := List.replicate 15 0x41 ++ [last]
  path := [0x2f, 0x61]
  query := none
  space_not_mem_method := h
  space_not_mem_path := by decide
  questionMark_not_mem_path := by decide
  headers := []
  body := []
  clientAddr := []

/-- One open route `/a` for every method; the handler answers with the last byte
of the method. -/
def echoServer : HttpServer Unit where
  exactRoutes := [([0x2a, 0x20, 0x2f, 0x61],
    ⟨some fun w req resp => (true, { resp with body := some (req.method.drop 15) }, w), 0⟩)]
  prefixRoutes := []
  middleware := []
  authCb := none
  caching := true
  cacheMax := 4
  cacheTtlMs := 1000
  routeTtls := []
  cacheMax_pos := by decide

/-- The method buffer cuts both methods to the same 15 bytes, so the second
request is answered with the response to the first. -/
theorem cut_method_served_from_cache :
    ¬ ∀ pre v post, visits echoServer Cache.empty ()
        [(longMethod 0x42 (by decide), ⟨0, 0, true, true⟩),
          (longMethod 0x43 (by decide), ⟨5, 5, true, true⟩)] = pre ++ v :: post →
      Faithful echoServer pre v := by
  intro h
  have hf := h [_] _ [] rfl
  obtain ⟨-, v', hv', -, hsame, -⟩ := hf.cached _ _ rfl
  rw [mem_singleton] at hv'
  subst hv'
  have := hsame.method
  revert this
  decide

end Http

end AxlSdk
