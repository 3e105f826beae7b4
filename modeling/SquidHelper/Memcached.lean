/-
SquidHelper/Memcached.lean

The cache plugin, `src/plugins/mod_memcached/webcontrol_memcached.c`, in a helper with any
other plugins.

The server is part of the world: what it holds under a key, which `memcached_get` may or
may not deliver, `memcached_set` may or may not store, and the rest of the machine may
drop.  Under the plugin's prefix nobody else writes.

An answer from the cache is sound when some other plugin has given it.  Lookup and store
of a request are steps of their own, with steps of the other workers in between, so the
argument goes through the log: `Sound` says of every cached value, of every request about
to be stored and of every hit that the decision it comes from is in the log already, made
by another plugin and sent as the answer.
-/
import SquidHelper.Layout
import SquidHelper.Verdict

namespace SquidHelper

open CString Memory History

variable {σ ω : Type*} {n : ℕ}

/-! ### The plugin -/

/-- `str4_cmp`: four bytes, loaded as one number, against four characters. -/
def str4Cmp (str : List Byte) (c0 c1 c2 c3 : Byte) : Bool :=
  ofBytes (str.take 4)
    == (c3.toNat <<< 24 ||| c2.toNat <<< 16 ||| c1.toNat <<< 8 ||| c0.toNat)

/-- What is outside of the plugin's control in one step. -/
structure Chance (σ : Type*) where
  /-- The bytes that `malloc` left in the request. -/
  garbage : ℕ → Byte
  /-- `memcached_get` comes through. -/
  get : Bool
  /-- `memcached_set` stores. -/
  set : Bool
  /-- The entries that the server drops. -/
  drop : List Byte → Bool
  /-- The entries of other programs. -/
  foreign : List Byte → Option (List Byte)
  other : σ

/-- The server, and what the other plugins see. -/
structure World (ω : Type*) where
  cache : List Byte → Option (List Byte)
  rest : ω

/-- What the plugin takes from libmemcached: `MEMCACHED_MAX_KEY`, which has room for a key
made from an IPv4 address, and the outcome of `thread_init`. -/
structure Memcached where
  maxKey : ℕ
  le_maxKey : 31 ≤ maxKey
  threadInit : ℕ → ℤ

/-- The key of a request; nothing if `webcontrol_memcached_generate_key` leaves an array. -/
def memcachedKey (b : Build) (m : Memcached) (o : Chance σ) (req : Request) : List Byte :=
  (pluginKey b m.maxKey o.garbage req).getD []

def memcachedHandleRequest (b : Build) (m : Memcached) (o : Chance σ) (world : World ω)
    (req : Request) : HandlerResult (World ω) :=
  match if o.get then world.cache (memcachedKey b m o req) else none with
  | some value => ⟨if str4Cmp value 84 82 85 69 then .allow else .deny, true, world⟩
  | none => ⟨.goOn, false, world⟩

/-- The value that stands for a result. -/
def cachedValue (result : ℤ) : List Byte :=
  if result = HandlerStatus.allow.toInt then ascii "TRUE" else ascii "FALSE"

def memcachedPostHandleRequest (b : Build) (m : Memcached) (o : Chance σ) (world : World ω)
    (req : Request) : World ω :=
  if o.set then
    { world with cache := Function.update world.cache (memcachedKey b m o req)
                            (some (cachedValue req.result)) }
  else world

def memcachedPlugin (b : Build) (m : Memcached) : Plugin (Chance σ) (World ω) where
  threadInit := some m.threadInit
  handleRequest := some (memcachedHandleRequest b m)
  postHandleRequest := some (memcachedPostHandleRequest b m)

/-- Another plugin, which knows nothing of the server. -/
def Plugin.lift (p : Plugin σ ω) : Plugin (Chance σ) (World ω) where
  threadInit := p.threadInit
  handleRequest := p.handleRequest.map fun h o world req =>
    ⟨(h o.other world.rest req).status, (h o.other world.rest req).skip,
      { world with rest := (h o.other world.rest req).world }⟩
  postHandleRequest := p.postHandleRequest.map fun h o world req =>
    { world with rest := h o.other world.rest req }
  watcher := p.watcher.map fun f o world =>
    ({ world with rest := (f o.other world.rest).1 }, (f o.other world.rest).2)

/-- The plugins of `c` with memcached as the `k`-th. -/
def memcachedCore (c : Core σ ω) (k : ℕ) (m : Memcached) : Core (Chance σ) (World ω) where
  build := c.build
  inetPton := c.inetPton
  plugins := (c.plugins.map Plugin.lift).insertIdx k (memcachedPlugin c.build m)
  denyByDefault := c.denyByDefault
  outside o world :=
    { cache := fun key =>
        if WEBCONTROL_MEMCACHED_DEFAULT_KEY_PREFIX.isPrefixOf key then
          if o.drop key then none else world.cache key
        else o.foreign key
      rest := c.outside o.other world.rest }

/-- **What is stored for a decision is read as that decision.** -/
theorem str4Cmp_cachedValue {status : HandlerStatus} (h : status.Decisive) :
    (if str4Cmp (cachedValue status.toInt) 84 82 85 69 then HandlerStatus.allow else .deny)
      = status := by
  rcases h with rfl | rfl <;> decide

/-- A lookup changes nothing, and misses or reads an entry. -/
theorem memcachedHandleRequest_cases (b : Build) (m : Memcached) (o : Chance σ) (world : World ω)
    (req : Request) :
    memcachedHandleRequest b m o world req = ⟨.goOn, false, world⟩ ∨
      ∃ value, world.cache (memcachedKey b m o req) = some value ∧
        memcachedHandleRequest b m o world req
          = ⟨if str4Cmp value 84 82 85 69 then .allow else .deny, true, world⟩ := by
  unfold memcachedHandleRequest
  split
  case h_1 value hvalue =>
    rw [Option.ite_none_right_eq_some] at hvalue
    exact .inr ⟨value, hvalue.2, rfl⟩
  case h_2 => exact .inl rfl

/-! ### The plugins by position -/

section Plugins

variable {c : Core σ ω} {k : ℕ} {m : Memcached} {i : ℕ} {p : Plugin (Chance σ) (World ω)}

/-- How many plugins of `c` come before position `i`. -/
def otherIdx (k i : ℕ) : ℕ := if i ≤ k then i else i - 1

theorem otherIdx_self (k : ℕ) : otherIdx k (k + 1) = otherIdx k k := by
  rw [otherIdx, otherIdx, if_neg (by omega), if_pos le_rfl, Nat.add_sub_cancel]

theorem otherIdx_succ {k i : ℕ} (h : i ≠ k) : otherIdx k (i + 1) = otherIdx k i + 1 := by
  unfold otherIdx
  split <;> split <;> omega

theorem memcachedCore_plugins (h : (memcachedCore c k m).plugins[i]? = some p) :
    (i = k ∧ p = memcachedPlugin c.build m) ∨
      (i ≠ k ∧ ∃ q, c.plugins[otherIdx k i]? = some q ∧ p = q.lift) := by
  simp only [memcachedCore, List.getElem?_insertIdx, List.getElem?_map] at h
  split at h
  case isTrue hlt =>
    obtain ⟨q, hq, rfl⟩ := Option.map_eq_some_iff.mp h
    exact .inr ⟨hlt.ne, q, by rw [otherIdx, if_pos hlt.le]; exact hq, rfl⟩
  case isFalse hge =>
    split at h
    case isTrue heq =>
      obtain ⟨-, h⟩ := Option.ite_none_right_eq_some.mp h
      cases h
      exact .inl ⟨heq, rfl⟩
    case isFalse hne =>
      obtain ⟨q, hq, rfl⟩ := Option.map_eq_some_iff.mp h
      exact .inr ⟨hne, q, by rw [otherIdx, if_neg (by omega)]; exact hq, rfl⟩

theorem memcachedCore_plugins_none (h : (memcachedCore c k m).plugins[i]? = none) :
    c.plugins[otherIdx k i]? = none := by
  simp only [memcachedCore, List.getElem?_insertIdx, List.getElem?_map] at h
  split at h
  case isTrue hlt =>
    rw [otherIdx, if_pos hlt.le]
    exact Option.map_eq_none_iff.mp h
  case isFalse hge =>
    split at h
    case isTrue heq =>
      have hlt : c.plugins.length < i := by simpa using h
      rw [otherIdx, if_pos heq.le]
      exact List.getElem?_eq_none hlt.le
    case isFalse hne =>
      rw [otherIdx, if_neg (by omega)]
      exact Option.map_eq_none_iff.mp h

end Plugins

/-! ### Requests under way -/

/-- The key that goes with a text. -/
def textKey (text : List Byte) : List Byte := WEBCONTROL_MEMCACHED_DEFAULT_KEY_PREFIX ++ text

theorem textKey_injective : Function.Injective textKey := fun _ _ => List.append_cancel_left

/-- **A request is looked up and stored under its address text.** -/
theorem memcachedKey_eq {b : Build} {pton : InetPton} {line : List Byte} {req : Request}
    (hb : b.haveIpv6 = false) (h : req.ReadFrom b pton line) (m : Memcached) (o : Chance σ) :
    memcachedKey b m o req = textKey req.ipAddr.str := by
  obtain ⟨req₀, hparse, hip, -⟩ := h
  obtain ⟨a, -, hip₀, hlen⟩ := parseRequest_valid hparse
  have hstrLen : req.ipAddr.strLen = req.ipAddr.str.length := by rw [hip, hip₀]
  rw [← hip, Build.width, hb] at hlen
  rw [memcachedKey, pluginKey_inet hb m.le_maxKey hstrLen hlen]
  rfl

/-! ### Soundness -/

/-- A plugin other than the `k`-th decided the request of `job`, and the decision was its
answer. -/
def DecidedBy (k : ℕ) (log : List (Event n)) (job : Job) (text : List Byte)
    (status : HandlerStatus) : Prop :=
  ∃ i, i ≠ k ∧
    [.request job (.handled i text status),
      .request job (.responded (decisionAnswer (lineChannel job.line) status))].Sublist log

theorem DecidedBy.append {k : ℕ} {log : List (Event n)} {job : Job} {text : List Byte}
    {status : HandlerStatus} (h : DecidedBy k log job text status) (es : List (Event n)) :
    DecidedBy k (log ++ es) job text status := by
  obtain ⟨i, hi, hsub⟩ := h
  exact ⟨i, hi, hsub.trans (List.sublist_append_left ..)⟩

/-- What a worker knows at a point of a request. -/
def PcSound (c : Core σ ω) (k : ℕ) (log : List (Event n)) (job : Job) : RequestPc → Prop
  | .parse => True
  | .invalid _ => True
  | .handle req _ => req.ReadFrom c.build c.inetPton job.line ∧
      ∀ status : HandlerStatus, status.Decisive → req.result ≠ status.toInt
  | .respond req => req.ReadFrom c.build c.inetPton job.line ∧
      ∀ status : HandlerStatus, status.Decisive → req.result = status.toInt →
        req.skipPostHandleRequest = true ∨
          ∃ i, i ≠ k ∧ .request job (.handled i req.ipAddr.str status) ∈ log
  | .post req _ => req.ReadFrom c.build c.inetPton job.line ∧
      ∃ status : HandlerStatus, status.Decisive ∧ req.result = status.toInt ∧
        DecidedBy k log job req.ipAddr.str status

theorem PcSound.append {c : Core σ ω} {k : ℕ} {log : List (Event n)} {job : Job} {pc : RequestPc}
    (h : PcSound c k log job pc) (es : List (Event n)) : PcSound c k (log ++ es) job pc := by
  cases pc with
  | parse => trivial
  | invalid => trivial
  | handle => exact h
  | respond req =>
      refine ⟨h.1, ?_⟩
      intro status hd hres
      rcases h.2 status hd hres with hskip | ⟨i, hi, hmem⟩
      · exact .inl hskip
      · exact .inr ⟨i, hi, List.mem_append_left _ hmem⟩
  | post req =>
      obtain ⟨hread, status, hd, hres, hdec⟩ := h
      exact ⟨hread, status, hd, hres, hdec.append es⟩

/-- What an event says of the log before it: a hit of memcached repeats a decision, and the
post handlers see a decision. -/
def EventSound (k : ℕ) (log : List (Event n)) : Event n → Prop
  | .request _ (.handled i text status) =>
      i = k → status.Decisive → ∃ job, DecidedBy k log job text status
  | .request job (.posted _ text result) =>
      ∃ status : HandlerStatus, status.Decisive ∧ result = status.toInt ∧
        DecidedBy k log job text status
  | _ => True

/-- What the cache holds under the plugin's prefix was decided. -/
def CacheSound (k : ℕ) (log : List (Event n)) (world : World ω) : Prop :=
  ∀ key value, WEBCONTROL_MEMCACHED_DEFAULT_KEY_PREFIX.isPrefixOf key = true →
    world.cache key = some value →
    ∃ job text status, key = textKey text ∧ status.Decisive ∧ value = cachedValue status.toInt ∧
      DecidedBy k log job text status

structure Sound (c : Core σ ω) (k : ℕ) (s : State n (World ω)) : Prop where
  pc : ∀ w job pc, s.workers w = .busy job pc → PcSound c k s.log job pc
  cache : CacheSound k s.log s.world
  log : Justified (EventSound k) s.log

/-! ### One step of a request -/

section Move

variable {c : Core σ ω} {k : ℕ} {m : Memcached} {job : Job} {o : Chance σ} {world : World ω}
  {pc : RequestPc} {r : RequestStep (World ω)} {log : List (Event n)}

theorem decidedBy_of_responded {i : ℕ} {text : List Byte} {status : HandlerStatus} (hi : i ≠ k)
    (hmem : .request job (.handled i text status) ∈ log) :
    DecidedBy k (log ++ [.request job (.responded (decisionAnswer (lineChannel job.line) status))])
      job text status :=
  ⟨i, hi, (List.singleton_sublist.mpr hmem).append (.refl _)⟩

/-- A decision that is not from the cache goes on to the post handlers. -/
theorem PcSound.afterDecision {req : Request} {status : HandlerStatus} {pc' : RequestPc}
    (hpc : PcSound c k log job (.respond req)) (hd : status.Decisive)
    (hres : req.result = status.toInt) (hnext : afterDecision req = some pc') :
    PcSound c k (log ++ [.request job (.responded (decisionAnswer req.channel status))]) job pc' := by
  obtain ⟨hread, hdec⟩ := hpc
  obtain ⟨hskip, rfl⟩ := eq_post_of_afterDecision hnext
  refine ⟨hread, status, hd, hres, ?_⟩
  rcases hdec status hd hres with hskip' | ⟨i, hi, hmem⟩
  · rw [hskip] at hskip'
    cases hskip'
  · obtain ⟨_, -, -, hchannel⟩ := hread
    rw [hchannel]
    exact decidedBy_of_responded hi hmem

/-- The worker's knowledge after a step. -/
theorem RequestMove.pcSound
    (h : RequestMove (memcachedCore c k m) job.line o world pc r) (hpc : PcSound c k log job pc) :
    ∀ pc' ∈ r.next, PcSound c k (log ++ r.events.map (.request job)) job pc' := by
  intro pc' hnext
  cases h with
  | accept hparse =>
      cases hnext
      -- `result` is -1 at first, which is no status
      refine ⟨.of_parse hparse, ?_⟩
      intro status _ hres
      rw [parseRequest_result hparse] at hres
      exact status.toInt_ne_neg_one hres.symm
  | reject => cases hnext; trivial
  | noPlugin =>
      cases hnext
      exact ⟨hpc.1, fun status hd hres => absurd hres (hpc.2 status hd)⟩
  | noHandler => cases hnext; exact hpc
  | goOn =>
      cases hnext
      refine ⟨hpc.1, ?_⟩
      intro status hd hres
      rw [Request.after, HandlerStatus.toInt_inj] at hres
      rcases hd with rfl | rfl <;> cases hres
  | @decide req i p f r' hi hp hr hstatus =>
      cases hnext
      refine ⟨hpc.1, ?_⟩
      intro status hd hres
      obtain rfl := HandlerStatus.toInt_inj.mp hres
      rcases memcachedCore_plugins hi with ⟨rfl, rfl⟩ | ⟨hne, -⟩
      · -- a hit asks for the post handlers to be skipped
        cases hp
        left
        rcases memcachedHandleRequest_cases c.build m o world req with hmiss | ⟨value, -, hhit⟩
        · rw [← hr, hmiss] at hstatus
          exact absurd rfl hstatus
        · rw [← hr, hhit, Request.after, Bool.or_true]
      -- another plugin decided, and that is the last event in the log
      · exact .inr ⟨i, hne, List.mem_append_right _ (List.mem_singleton.mpr rfl)⟩
  | allow hres => exact hpc.afterDecision (.inl rfl) hres hnext
  | deny hres => exact hpc.afterDecision (.inr rfl) hres hnext
  | noPost => cases hnext; exact hpc.append []
  | posted => cases hnext; exact hpc.append [_]
  | _ => cases hnext

theorem CacheSound.congr {world' : World ω} (h : CacheSound k log world)
    (heq : world'.cache = world.cache) : CacheSound k log world' := by
  unfold CacheSound
  rw [heq]
  exact h

theorem CacheSound.append (h : CacheSound k log world) (es : List (Event n)) :
    CacheSound k (log ++ es) world := by
  intro key value hprefix hvalue
  obtain ⟨job, text, status, hkey, hd, hval, hdec⟩ := h key value hprefix hvalue
  exact ⟨job, text, status, hkey, hd, hval, hdec.append es⟩

/-- No handler call changes the cache. -/
theorem handle_cache {i : ℕ} {p : Plugin (Chance σ) (World ω)}
    {f : Chance σ → World ω → Request → HandlerResult (World ω)}
    (hi : (memcachedCore c k m).plugins[i]? = some p) (hp : p.handleRequest = some f)
    (req : Request) : (f o world req).world.cache = world.cache := by
  rcases memcachedCore_plugins hi with ⟨rfl, rfl⟩ | ⟨-, q, -, rfl⟩
  · cases hp
    rcases memcachedHandleRequest_cases c.build m o world req with hmiss | ⟨value, -, hhit⟩
    · rw [hmiss]
    · rw [hhit]
  · obtain ⟨f', -, rfl⟩ := Option.map_eq_some_iff.mp hp
    rfl

/-- The cache after a step. -/
theorem RequestMove.cacheSound (hb : c.build.haveIpv6 = false)
    (h : RequestMove (memcachedCore c k m) job.line o world pc r) (hpc : PcSound c k log job pc)
    (hcache : CacheSound k log world) : CacheSound k log r.world := by
  cases h with
  | goOn hi hp hr => exact hcache.congr (hr ▸ handle_cache hi hp _)
  | decide hi hp hr => exact hcache.congr (hr ▸ handle_cache hi hp _)
  | @posted req i p f hi hp =>
      rcases memcachedCore_plugins hi with ⟨rfl, rfl⟩ | ⟨-, q, -, rfl⟩
      · cases hp
        -- `memcached_set`, if it succeeds, stores the decision of this request
        obtain ⟨hread, status, hd, hres, hdec⟩ := hpc
        simp only [memcachedPostHandleRequest]
        split
        · intro key value hprefix hvalue
          simp only [memcachedKey_eq hb hread, hres] at hvalue
          rcases eq_or_ne key (textKey req.ipAddr.str) with rfl | hne
          · rw [Function.update_self] at hvalue
            cases hvalue
            exact ⟨job, _, status, rfl, hd, rfl, hdec⟩
          · rw [Function.update_of_ne hne] at hvalue
            exact hcache key value hprefix hvalue
        · exact hcache
      · obtain ⟨f', -, rfl⟩ := Option.map_eq_some_iff.mp hp
        exact hcache.congr rfl
  | _ => exact hcache

/-- The server forgets; nobody else writes. -/
theorem CacheSound.worldStep {world' : World ω} (h : CacheSound k log world)
    (hs : WorldStep (memcachedCore c k m) world world') : CacheSound k log world' := by
  cases hs with
  | same => exact h
  | watcher hi hf =>
      rcases memcachedCore_plugins hi with ⟨-, rfl⟩ | ⟨-, q, -, rfl⟩
      · cases hf
      · obtain ⟨f', -, rfl⟩ := Option.map_eq_some_iff.mp hf
        exact h.congr rfl
  | outside =>
      -- under the prefix a value can only vanish
      intro key value hprefix hvalue
      simp only [memcachedCore, if_pos hprefix] at hvalue
      exact h key value hprefix (Option.ite_none_left_eq_some.mp hvalue).2

/-- A hit repeats a decision on the same text. -/
theorem hit_decided (hb : c.build.haveIpv6 = false) {req : Request}
    (hread : req.ReadFrom c.build c.inetPton job.line) (hcache : CacheSound k log world)
    {status : HandlerStatus} (hd : status.Decisive)
    (hstatus : (memcachedHandleRequest c.build m o world req).status = status) :
    ∃ job', DecidedBy k log job' req.ipAddr.str status := by
  rcases memcachedHandleRequest_cases c.build m o world req with hmiss | ⟨value, hvalue, hhit⟩
  · rw [hmiss] at hstatus
    rcases hd with rfl | rfl <;> cases hstatus
  · rw [memcachedKey_eq hb hread] at hvalue
    obtain ⟨job', text, status', hkey, hd', rfl, hdec⟩ := hcache _ value
      (List.isPrefixOf_iff_prefix.mpr (List.prefix_append ..)) hvalue
    rw [hhit, str4Cmp_cachedValue hd'] at hstatus
    rw [textKey_injective hkey, ← hstatus]
    exact ⟨job', hdec⟩

/-- The events of a step. -/
theorem RequestMove.eventSound (hb : c.build.haveIpv6 = false)
    (h : RequestMove (memcachedCore c k m) job.line o world pc r) (hpc : PcSound c k log job pc)
    (hcache : CacheSound k log world) (hlog : Justified (EventSound k) log) :
    Justified (EventSound k) (log ++ r.events.map (.request job)) := by
  cases h with
  | goOn =>
      apply hlog.concat
      intro _ hd
      rcases hd with hd | hd <;> cases hd
  | @decide req i p f r' hi hp hr hstatus =>
      apply hlog.concat
      intro hik hd
      rcases memcachedCore_plugins hi with ⟨-, rfl⟩ | ⟨hne, -⟩
      · cases hp
        exact hit_decided hb hpc.1 hcache hd (by rw [hr])
      · exact absurd hik hne
  | posted => exact hlog.concat hpc.2
  | _ => exact hlog.append (by simp [EventSound])

end Move

/-! ### Whole runs -/

namespace Sound

variable {c : Core σ ω} {k : ℕ} {m : Memcached} {s s' : State n (World ω)}

theorem init (reads : List StdinRead) {world : World ω}
    (hempty : ∀ key, WEBCONTROL_MEMCACHED_DEFAULT_KEY_PREFIX.isPrefixOf key = true →
      world.cache key = none) : Sound c k (State.init n reads world) where
  pc _ _ _ h := by cases h
  cache key value hprefix hvalue := by
    rw [State.init, hempty key hprefix] at hvalue
    cases hvalue
  log := .nil

theorem step (hb : c.build.haveIpv6 = false) (h : Sound c k s)
    (hs : RequestView (memcachedCore c k m) s s') : Sound c k s' := by
  cases hs with
  | @request w o job pc r hold hmove hlog hworld hw =>
      refine ⟨?_, ?_, ?_⟩
      · intro w' job' pc' hpc
        rw [hlog]
        rcases eq_or_ne w' w with rfl | hne
        · rw [hw, Function.update_self] at hpc
          obtain ⟨rfl, hnext⟩ := WorkerPc.afterStep_eq_busy.mp hpc
          -- the step is that of `w`; for the others the log grows only
          exact hmove.pcSound (h.pc _ _ _ hold) _ hnext
        · rw [hw, Function.update_of_ne hne] at hpc
          exact (h.pc w' job' pc' hpc).append _
      · rw [hlog, hworld]
        exact (hmove.cacheSound hb (h.pc _ _ _ hold) h.cache).append _
      · rw [hlog]
        exact hmove.eventSound hb (h.pc _ _ _ hold) h.cache h.log
  | @quiet es hlog hes hworld hw =>
      refine ⟨?_, ?_, ?_⟩
      · intro w job pc hpc
        rw [hlog]
        rcases hw w job pc hpc with hold | rfl
        · exact (h.pc w job pc hold).append es
        · trivial
      · rw [hlog]
        exact (h.cache.worldStep hworld).append es
      · rw [hlog]
        apply h.log.append
        intro e he l
        cases e with
        | request job e' => exact absurd rfl (hes _ he job e')
        | _ => trivial

end Sound

theorem sound_of_reaches {c : Core σ ω} {k : ℕ} {m : Memcached} {reads : List StdinRead}
    {world : World ω} {s : State n (World ω)} (hb : c.build.haveIpv6 = false)
    (hempty : ∀ key, WEBCONTROL_MEMCACHED_DEFAULT_KEY_PREFIX.isPrefixOf key = true →
      world.cache key = none)
    (h : (helper (memcachedCore c k m) n).Reaches (State.init n reads world) s) : Sound c k s :=
  h.invariant (fun _ _ _ hs hstep => hs.step hb (step_step hstep).requestView) (Sound.init reads hempty)

/-! ### The same answers as without memcached -/

/-- The chain with memcached in it comes to what the other plugins come to. -/
theorem Fixed.memcachedChain {c : Core σ ω} {f : Plugin σ ω → List Byte → HandlerStatus}
    (h : Fixed c f) (k : ℕ) (m : Memcached) :
    Chain (memcachedCore c k m) (some k)
      fun i text => verdict f text (c.plugins.drop (otherIdx k i)) where
  done hi := h.chain.done (memcachedCore_plugins_none hi)
  skip {i p text} hi hp := by
    rcases memcachedCore_plugins hi with ⟨-, rfl⟩ | ⟨hne, q, hq, rfl⟩
    · cases hp
    · rw [otherIdx_succ hne]
      exact h.chain.skip hq (Option.map_eq_none_iff.mp hp)
  call {i p g} hi hp hk o world req := by
    rcases memcachedCore_plugins hi with ⟨rfl, -⟩ | ⟨hne, q, hq, rfl⟩
    · exact absurd rfl hk
    · obtain ⟨g', hg', rfl⟩ := Option.map_eq_some_iff.mp hp
      rw [otherIdx_succ hne]
      exact h.chain.call hq hg' (by simp) o.other world.rest req
  cache _ _ hk := by
    cases hk
    rw [otherIdx_self]
  cacheStatus hi hp hk o world req := by
    cases hk
    rcases memcachedCore_plugins hi with ⟨-, rfl⟩ | ⟨hne, -⟩
    · cases hp
      rcases memcachedHandleRequest_cases c.build m o world req with hmiss | ⟨value, -, hhit⟩
      -- a miss goes on, and any value counts as `ALLOW` or `DENY`
      · exact .inl (by rw [hmiss])
      · right
        rw [hhit]
        split
        · exact .inl rfl
        · exact .inr rfl
    · exact absurd rfl hne

/-- A hit repeats a decision of another plugin. -/
theorem Sound.repeats {c : Core σ ω} {k : ℕ} {s : State n (World ω)} (h : Sound c k s) :
    Justified (Repeats (some k)) s.log := by
  intro before e after heq
  have hevent := h.log before e after heq
  cases e with
  | request job e =>
      cases e with
      | handled i text status =>
          intro hk hd
          obtain ⟨job', j, hj, hsub⟩ := hevent (Option.some.inj hk) hd
          exact ⟨job', j, by simpa using hj, hsub.subset List.mem_cons_self⟩
      | _ => trivial
  | _ => trivial

/-- **The cache is sound.**  In every run of the helper with memcached at position `k` that
starts with nothing under the plugin's prefix:

* every `ALLOW` and `DENY` from memcached repeats an earlier decision of another plugin for
  the same text, which was the answer to its request;
* the post handlers are called, and values are in the cache, for such decisions only;
* if the other plugins go by the address text, every line is answered as in any run of the
  helper without memcached. -/
theorem memcached_sound {c : Core σ ω} (hb : c.build.haveIpv6 = false) (k : ℕ) (m : Memcached)
    {reads : List StdinRead} {world : World ω}
    (hempty : ∀ key, WEBCONTROL_MEMCACHED_DEFAULT_KEY_PREFIX.isPrefixOf key = true →
      world.cache key = none)
    {s : State n (World ω)}
    (h : (helper (memcachedCore c k m) n).Reaches (State.init n reads world) s) :
    (∀ before job text status after,
      s.log = before ++ .request job (.handled k text status) :: after → status.Decisive →
        ∃ job', DecidedBy k before job' text status) ∧
    (∀ before job i text result after,
      s.log = before ++ .request job (.posted i text result) :: after →
        ∃ status : HandlerStatus, status.Decisive ∧ result = status.toInt ∧
          DecidedBy k before job text status) ∧
    (∀ key value, WEBCONTROL_MEMCACHED_DEFAULT_KEY_PREFIX.isPrefixOf key = true →
      s.world.cache key = some value →
        ∃ job text status, key = textKey text ∧ status.Decisive ∧
          value = cachedValue status.toInt ∧ DecidedBy k s.log job text status) ∧
    (∀ f, Fixed c f → ∀ (n' : ℕ) (reads' : List StdinRead) (world' : ω) (s' : State n' ω),
      (helper c n').Reaches (State.init n' reads' world') s' →
        ∀ job job', job.line = job'.line → ∀ out ∈ answersTo job s.log,
          ∀ out' ∈ answersTo job' s'.log, out = out') := by
  have hsound := sound_of_reaches hb hempty h
  refine ⟨?_, fun before job i text result after hlog => hsound.log before _ after hlog,
    hsound.cache, ?_⟩
  · intro before job text status after hlog hd
    exact hsound.log before _ after hlog rfl hd
  -- what memcached answers was an answer of the other plugins
  · intro f hf n' reads' world' s' h' job job' hline out hout out' hout'
    have hfair := fair_of_reaches (hf.memcachedChain k m)
      (fun s₁ h₁ => (sound_of_reaches hb hempty h₁).repeats) h
    rw [hfair.answer hout, answer_of_fixed hf h' hout', ← hline]
    rfl

/-- One plugin, which allows one address. -/
def allowCore : Core Unit Unit where
  build := ⟨false⟩
  inetPton := ipv4Only
  plugins :=
    [{ handleRequest := some fun _ _ req =>
        ⟨if req.ipAddr.str = ascii "10.0.0.1" then .allow else .goOn, false, ()⟩ }]
  denyByDefault := true

/-- `MEMCACHED_MAX_KEY` is 251. -/
def memcachedSample : Memcached where
  maxKey := 251
  le_maxKey := by decide
  threadInit _ := 0

/-- A server that works. -/
def allGoesWell : Chance Unit where
  garbage _ := 0
  get := true
  set := true
  drop _ := false
  foreign _ := none
  other := ()

/-- The same address twice; the second answer is from the cache. -/
def secondHitRun : List (Action 1 (Chance Unit)) :=
  [.stdin, .go, .go, .go, .go] ++ List.replicate 12 (.worker (Fin.last 0) allGoesWell)

theorem memcached_sound_secondHit :
    ∃ s, (helper (memcachedCore allowCore 0 memcachedSample) 1).Reaches
        (State.init 1 [.data [ascii "1 10.0.0.1", ascii "2 10.0.0.1"] false] ⟨fun _ => none, ()⟩) s ∧
      s.log[8]? = some (.request ⟨1, ascii "2 10.0.0.1"⟩ (.handled 0 (ascii "10.0.0.1") .allow)) ∧
      ∃ job', DecidedBy 0 (s.log.take 8) job' (ascii "10.0.0.1") .allow := by
  have hrun : ((helper (memcachedCore allowCore 0 memcachedSample) 1).exec
      (State.init 1 [.data [ascii "1 10.0.0.1", ascii "2 10.0.0.1"] false] ⟨fun _ => none, ()⟩)
      secondHitRun).any (fun s => decide (s.log[8]? = some
        (.request ⟨1, ascii "2 10.0.0.1"⟩ (.handled 0 (ascii "10.0.0.1") .allow)))) = true := by
    decide +kernel
  obtain ⟨s, hs, hp⟩ := (Option.any_eq_true _ _).mp hrun
  have hlog := of_decide_eq_true hp
  have hreach : (helper _ 1).Reaches _ s := ⟨secondHitRun, hs⟩
  obtain ⟨hhit, -⟩ := memcached_sound rfl 0 memcachedSample (fun _ _ => rfl) hreach
  obtain ⟨hlt, hget⟩ := List.getElem?_eq_some_iff.mp hlog
  have hsplit : s.log = s.log.take 8 ++ s.log[8] :: s.log.drop 9 := by
    rw [List.getElem_cons_drop, List.take_append_drop]
  rw [hget] at hsplit
  exact ⟨s, hreach, hlog, hhit _ _ _ _ _ hsplit (.inl rfl)⟩

end SquidHelper
