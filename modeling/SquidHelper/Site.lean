/-
SquidHelper/Site.lean

The helper as it is installed: the text file, the directory and the cache, loaded in any
order, each or only some of them.

The other modules look at the plugins one by one.  Here they are put into one process,
with the hosts file, the directory and the cache server as its world, and the question is
what an answer on standard output says about them.  `answer_is_backed` says it: for every
`OK` and `DENIED`, at some moment of the run, the hosts file said so of the address on the
line, or a search of the directory did, with the name of the address in the filter.

The filter is a `Template`, with exactly one `%s` and no other `%`.  The name is printed into
it as it is, so that what the search finds need not be the entry of the name; for that see
`ActiveDirectory.lean`.

`webcontrol_txtfile_handle_request` is one step here; that its mutex makes it one is the
result of `Reload.lean`.
-/
import SquidHelper.ActiveDirectory
import SquidHelper.Provenance
import SquidHelper.TxtFile

namespace SquidHelper

namespace Site

open CString History ActiveDirectory

variable {σ : Type*} {n : ℕ}

/-! ### The connection to the directory -/

/-- What `thread_init` reads of `plugin_config`. -/
structure Connection where
  uri : Option Config.Argument
  bindDn : Option Config.Argument
  bindPassword : Option Config.Argument

/-- What the calls of libldap come to in a thread. -/
structure Libldap where
  /-- `ldap_initialize` returns `LDAP_SUCCESS`. -/
  ldapInitialize : ℕ → Config.Argument → Bool
  /-- `ldap_sasl_bind` returns `LDAP_SUCCESS`. -/
  ldapSaslBind : ℕ → Option Config.Argument → Option Config.Argument → Bool
  /-- `ldap_result` returns `LDAP_RES_BIND`, whatever the answer to the bind is. -/
  ldapResult : ℕ → Bool

/-- `webcontrol_activedirectory_ldap_open`, in the thread with this number. -/
def ldapOpen (l : Libldap) (pc : Connection) (number : ℕ) : ℤ :=
  match pc.uri with
  | none => -1
  | some uri =>
      if l.ldapInitialize number uri = false then -1
      else if l.ldapSaslBind number pc.bindDn pc.bindPassword = false then -1
      else if l.ldapResult number = false then -1
      else 0

/-- `ldap_get_values_len` returns `NULL` where there are no values. -/
structure LiveDirectory (σ : Type*) extends Directory σ where
  values_ne_nil : ∀ o search', search o search' ≠ .values []

/-! ### The plugins -/

/-- What is configured and built. -/
structure Setup (σ : Type*) where
  build : Build
  inetPton : InetPton
  denyByDefault : Bool
  directory : LiveDirectory σ
  libldap : Libldap
  connection : Connection
  config : PluginConfig
  template : Template
  /-- `file` in the section `txtfile`. -/
  filename : List Byte

inductive Kind
  | txtfile
  | activeDirectory
  deriving DecidableEq, Repr

/-- The hosts file, and what the text file plugin has made of it. -/
structure Table (b : Build) (pton : InetPton) where
  file : Option (HostsFile b pton)
  pd : PluginData

/-- What the rest of the machine may do: the hosts file is from now on this one. -/
structure Occasion (σ : Type*) (b : Build) (pton : InetPton) where
  file : Option (HostsFile b pton)
  other : σ

/-- `parse_file`, with what it prints. -/
def reload {b : Build} {pton : InetPton} (t : Table b pton) : Table b pton × List (List Byte) :=
  match parseFile b pton t.pd (t.file.map HostsFile.bytes) with
  | .ok (pd, out) => ({ t with pd := pd }, out)
  | .error _ => (t, [])

/-- Behind `webcontrol_txtfile_process_config`. -/
def Table.start {b : Build} {pton : InetPton} (filename : List Byte)
    (file : Option (HostsFile b pton)) : Table b pton := (reload ⟨file, ⟨filename, []⟩⟩).1

namespace Setup

variable (S : Setup σ)

abbrev SiteTable := Table S.build S.inetPton

abbrev SiteOccasion := Occasion σ S.build S.inetPton

def plugin : Kind → Plugin S.SiteOccasion S.SiteTable
  | .txtfile =>
      { handleRequest := some fun _ t req => ⟨txtfileHandleRequest t.pd req, false, t⟩
        watcher := some fun _ t => reload t }
  | .activeDirectory =>
      { threadInit := some (ldapOpen S.libldap S.connection)
        handleRequest := some fun o t req =>
          match ActiveDirectory.handleRequest S.directory.toDirectory
              (configured S.config S.template) o.other t req with
          | .ok r => r
          | .error _ => ⟨.goOn, false, t⟩ }

/-- The plugins but memcached, in the order of `-p`. -/
def core (order : List Kind) : Core S.SiteOccasion S.SiteTable where
  build := S.build
  inetPton := S.inetPton
  plugins := order.map S.plugin
  denyByDefault := S.denyByDefault
  outside o t := { t with file := o.file }

end Setup

/-! ### What the plugins go by -/

/-- What the values of the attribute come to. -/
def valueStatus (bvVal : List Byte) : HandlerStatus :=
  if str4Cmp bvVal 84 82 85 69 then .allow else .deny

/-- The search for the template filled with the name of this address, the name as it is, found
values, and the first of them says so. -/
def DirectorySays (S : Setup σ) (o : σ) (addr : IpAddr) (status : HandlerStatus) : Prop :=
  ∃ hostname bvVal bvVals, S.directory.getnameinfo o addr.sockaddr = some hostname ∧
    S.directory.search o ⟨S.config.basedn, S.template.before ++ hostname.val ++ S.template.after,
      S.config.attributeName.getD S.directory.attributeName⟩ = .values (bvVal :: bvVals) ∧
    valueStatus bvVal = status

theorem reload_of_file {b : Build} {pton : InetPton} {t : Table b pton} {f : HostsFile b pton}
    (h : t.file = some f) :
    (reload t).1 = { t with pd := { t.pd with entryChain := f.chain } } := by
  rw [reload, h, Option.map_some, f.parseFile]

theorem reload_of_none {b : Build} {pton : InetPton} {t : Table b pton} (h : t.file = none) :
    (reload t).1 = t := by
  obtain ⟨file, pd⟩ := t
  cases h
  rfl

/-- A decision of the directory plugin. -/
theorem directorySays_of_status {S : Setup σ} {o : S.SiteOccasion} {t : S.SiteTable}
    {req : Request} {status : HandlerStatus} (hd : status.Decisive)
    {f : S.SiteOccasion → S.SiteTable → Request → HandlerResult S.SiteTable}
    (hf : (S.plugin .activeDirectory).handleRequest = some f) (hstatus : (f o t req).status = status) :
    DirectorySays S o.other req.ipAddr status := by
  cases hf
  simp only [handleRequest_configured] at hstatus
  cases hname : rdnsLookup S.directory.toDirectory o.other req.ipAddr with
  | none =>
      rw [hname] at hstatus
      exact absurd hstatus.symm hd.ne_goOn
  | some hostname =>
      rw [hname] at hstatus
      simp only at hstatus
      cases hfound : S.directory.search o.other ⟨S.config.basedn, S.template.fill hostname.val,
          S.config.attributeName.getD S.directory.attributeName⟩ with
      | values bvVals =>
          cases bvVals with
          | nil => exact absurd hfound (S.directory.values_ne_nil _ _)
          | cons bvVal bvVals =>
              rw [hfound] at hstatus
              exact ⟨hostname, bvVal, bvVals, hname, hfound, hstatus⟩
      | _ =>
          rw [hfound] at hstatus
          exact absurd hstatus.symm hd.ne_goOn

/-- What the calls of a plugin do to the table. -/
theorem plugin_table {S : Setup σ} {kind : Kind} :
    (∀ f, (S.plugin kind).handleRequest = some f → ∀ o t req, (f o t req).world = t) ∧
      (S.plugin kind).postHandleRequest = none ∧
      ∀ f, (S.plugin kind).watcher = some f → ∀ o t, (f o t).1 = (reload t).1 := by
  cases kind with
  | txtfile =>
      refine ⟨?_, rfl, ?_⟩
      · rintro f ⟨⟩ o t req
        rfl
      · rintro f ⟨⟩ o t
        rfl
  | activeDirectory =>
      refine ⟨?_, rfl, nofun⟩
      rintro f ⟨⟩ o t req
      simp only [handleRequest_configured]
      cases rdnsLookup S.directory.toDirectory o.other req.ipAddr with
      | none => rfl
      | some hostname =>
          simp only
          cases S.directory.search o.other ⟨S.config.basedn, S.template.fill hostname.val,
              S.config.attributeName.getD S.directory.attributeName⟩ with
          | values bvVals => cases bvVals <;> rfl
          | _ => rfl

/-! ### The table during a run -/

section Run

variable {S : Setup σ} {order : List Kind} {k : ℕ} {m : Memcached}

/-- The installed helper; where `k` is no position, without memcached. -/
abbrev Setup.siteCore (S : Setup σ) (order : List Kind) (k : ℕ) (m : Memcached) :
    Core (Chance S.SiteOccasion) (World S.SiteTable) := memcachedCore (S.core order) k m

/-- A plugin at a position is memcached or one of the others. -/
theorem siteCore_plugins {i : ℕ} {p : Plugin (Chance S.SiteOccasion) (World S.SiteTable)}
    (h : (S.siteCore order k m).plugins[i]? = some p) :
    (i = k ∧ p = memcachedPlugin S.build m) ∨
      ∃ kind ∈ order, p = (S.plugin kind).lift := by
  rcases memcachedCore_plugins h with ⟨rfl, rfl⟩ | ⟨-, q, hq, rfl⟩
  · exact .inl ⟨rfl, rfl⟩
  · obtain ⟨kind, hkind, rfl⟩ := List.mem_map.mp (List.mem_of_getElem? hq)
    exact .inr ⟨kind, hkind, rfl⟩

/-- A handler leaves the table as it is. -/
theorem handler_table {i : ℕ} {p : Plugin (Chance S.SiteOccasion) (World S.SiteTable)}
    {f : Chance S.SiteOccasion → World S.SiteTable → Request → HandlerResult (World S.SiteTable)}
    (hi : (S.siteCore order k m).plugins[i]? = some p) (hp : p.handleRequest = some f)
    {o : Chance S.SiteOccasion} {world : World S.SiteTable} {req : Request} :
    (f o world req).world.rest = world.rest := by
  rcases siteCore_plugins hi with ⟨-, rfl⟩ | ⟨kind, -, rfl⟩
  · cases hp
    rcases memcachedHandleRequest_cases S.build m o world req with hmiss | ⟨value, -, hhit⟩
    · rw [hmiss]
    · rw [hhit]
  · obtain ⟨f', hf', rfl⟩ := Option.map_eq_some_iff.mp hp
    exact plugin_table.1 f' hf' ..

/-- A step reads the file again, or leaves the chain alone. -/
theorem table_step {s s' : State n (World S.SiteTable)}
    (hs : RequestView (S.siteCore order k m) s s') :
    s'.world.rest.pd = s.world.rest.pd ∨ s'.world.rest = (reload s.world.rest).1 := by
  cases hs with
  | request hold hmove hlog hworld hw =>
      left
      rw [hworld]
      cases hmove with
      | goOn hi hp hr => rw [← hr, handler_table hi hp]
      | decide hi hp hr => rw [← hr, handler_table hi hp]
      | posted hi hp =>
          rcases siteCore_plugins hi with ⟨-, rfl⟩ | ⟨kind, -, rfl⟩
          · cases hp
            simp only [memcachedPostHandleRequest]
            split <;> rfl
          · rw [Plugin.lift, plugin_table.2.1] at hp
            cases hp
      | _ => rfl
  | quiet hlog hes hworld hw =>
      generalize s'.world = world' at hworld
      cases hworld with
      | same => exact .inl rfl
      | watcher hi hf =>
          rcases siteCore_plugins hi with ⟨-, rfl⟩ | ⟨kind, -, rfl⟩
          · cases hf
          · obtain ⟨f', hf', rfl⟩ := Option.map_eq_some_iff.mp hf
            exact .inr (plugin_table.2.2 f' hf' ..)
      | outside => exact .inl rfl

/-- At some moment of the run the hosts file was this one. -/
def FileDuring (S : Setup σ) (order : List Kind) (k : ℕ) (m : Memcached)
    (s₀ : State n (World S.SiteTable)) (as : List (Action n (Chance S.SiteOccasion)))
    (f : HostsFile S.build S.inetPton) : Prop :=
  ∃ as₁ s₁, as₁ <+: as ∧ (helper (S.siteCore order k m) n).exec s₀ as₁ = some s₁ ∧
    s₁.world.rest.file = some f

theorem FileDuring.mono {s₀ : State n (World S.SiteTable)}
    {as bs : List (Action n (Chance S.SiteOccasion))} {f : HostsFile S.build S.inetPton}
    (h : FileDuring S order k m s₀ as f) (hmore : as <+: bs) :
    FileDuring S order k m s₀ bs f := by
  obtain ⟨as₁, s₁, hle, h⟩ := h
  exact ⟨as₁, s₁, hle.trans hmore, h⟩

/-- **The chain is that of a file there was**, in every run. -/
theorem chain_of_exec {reads : List StdinRead} {cache : List Byte → Option (List Byte)}
    {file : Option (HostsFile S.build S.inetPton)}
    {as : List (Action n (Chance S.SiteOccasion))} {s : State n (World S.SiteTable)}
    (h : (helper (S.siteCore order k m) n).exec
      (State.init n reads ⟨cache, .start S.filename file⟩) as = some s) :
    s.world.rest.pd.entryChain = [] ∨
      ∃ f, FileDuring S order k m (State.init n reads ⟨cache, .start S.filename file⟩) as f ∧
        s.world.rest.pd.entryChain = f.chain := by
  refine Guarded.exec_induction (P := fun as s => s.world.rest.pd.entryChain = [] ∨
    ∃ f, FileDuring S order k m (State.init n reads ⟨cache, .start S.filename file⟩) as f ∧
      s.world.rest.pd.entryChain = f.chain) ?_ (fun as s₁ a s₂ hexec ih hstep => ?_) h
  · cases file with
    | none => exact .inl (by rw [State.init, Table.start, reload_of_none rfl])
    | some f =>
        have hstart : Table.start S.filename (some f) = ⟨some f, ⟨S.filename, f.chain⟩⟩ :=
          reload_of_file rfl
        rw [hstart]
        exact .inr ⟨f, ⟨[], _, List.prefix_rfl, rfl, rfl⟩, rfl⟩
  · have hlater : s₁.world.rest.pd.entryChain = [] ∨
        ∃ f, FileDuring S order k m (State.init n reads ⟨cache, .start S.filename file⟩)
          (as ++ [a]) f ∧ s₁.world.rest.pd.entryChain = f.chain := by
      refine ih.imp_right ?_
      rintro ⟨f, hf, hchain⟩
      exact ⟨f, hf.mono (List.prefix_append ..), hchain⟩
    rcases table_step (step_step hstep).requestView with hsame | hreload
    · rw [hsame]
      exact hlater
    · cases hfile : s₁.world.rest.file with
      | none =>
          rw [hreload, reload_of_none hfile]
          exact hlater
      | some f =>
          -- the file as it is in this moment
          rw [hreload, reload_of_file hfile]
          exact .inr ⟨f, ⟨as, s₁, List.prefix_append .., hexec, hfile⟩, rfl⟩

/-- **Every answer is backed.**  In every run of the helper with the text file, the directory
and the cache, in any order, and with nothing in the cache at first: where an answer tells of
a decision, the line has an address, and at some moment before the answer the hosts file had
this decision for the address, or the search with the name of the address in the template
found values the first of which says so.  By default denying, this is all `OK`s. -/
theorem answer_is_backed (hb : S.build.haveIpv6 = false) {reads : List StdinRead}
    {cache : List Byte → Option (List Byte)} {file : Option (HostsFile S.build S.inetPton)}
    (hempty : ∀ key, WEBCONTROL_MEMCACHED_DEFAULT_KEY_PREFIX.isPrefixOf key = true →
      cache key = none)
    {as : List (Action n (Chance S.SiteOccasion))} {s : State n (World S.SiteTable)}
    (h : (helper (S.siteCore order k m) n).exec
      (State.init n reads ⟨cache, .start S.filename file⟩) as = some s)
    {job : Job} {out : List Byte} {status : HandlerStatus}
    (hout : .request job (.responded out) ∈ s.log)
    (htells : Tells (S.siteCore order k m) job.line out status) :
    ∃ req a, parseRequest S.build S.inetPton job.line = .valid req ∧
      req.ipAddr.sockaddr = some a ∧
      ((.txtfile ∈ order ∧ ∃ f, FileDuring S order k m
          (State.init n reads ⟨cache, .start S.filename file⟩) as f ∧ f.decision a = status) ∨
        (.activeDirectory ∈ order ∧ ∃ as₁ w o, as₁ ++ [.worker w o] <+: as ∧
          DirectorySays S o.other.other req.ipAddr status)) := by
  have hsound := sound_of_reaches hb hempty ⟨as, h⟩
  obtain ⟨req, hvalid, as₁, w, o, s₁, req', job', i, hprefix, hexec, hk, hcall, hip⟩ :=
    decided_of_exec h hsound.repeats hout htells
  obtain ⟨a, -, haddr, -⟩ := parseRequest_valid hvalid
  have hsock : req.ipAddr.sockaddr = some a := by rw [haddr]
  refine ⟨req, a, hvalid, hsock, ?_⟩
  obtain ⟨f, hf, hstatus⟩ := hcall.returns
  obtain ⟨p, hi, hp⟩ := Option.bind_eq_some_iff.mp hf
  rcases siteCore_plugins hi with ⟨rfl, -⟩ | ⟨kind, hkind, rfl⟩
  · exact absurd rfl hk
  · obtain ⟨f', hf', rfl⟩ := Option.map_eq_some_iff.mp hp
    cases kind with
    | txtfile =>
        cases hf'
        left
        refine ⟨hkind, ?_⟩
        have hwalk : walk (some a) s₁.world.rest.pd.entryChain = status := by
          rw [← hsock, ← hip]
          exact hstatus
        rcases chain_of_exec hexec with hnil | ⟨g, hg, hchain⟩
        · rw [hnil] at hwalk
          exact absurd hwalk.symm htells.decisive.ne_goOn
        · rw [hchain, g.walk_chain] at hwalk
          exact ⟨g, hg.mono ((List.prefix_append ..).trans hprefix), hwalk⟩
    | activeDirectory =>
        have hsays := directorySays_of_status htells.decisive hf' hstatus
        rw [hip] at hsays
        exact .inr ⟨hkind, as₁, w, o, hprefix, hsays⟩

/-! ### A run with all three -/

/-- Every client is called `pc1`, and `pc1` may use the web. -/
def sampleDirectory : LiveDirectory Unit where
  getnameinfo _ _ := some ⟨ascii "pc1", by decide⟩
  search _ search' :=
    if search'.filter = ascii "(&(objectclass=computer)(dNSHostName=pc1))" then
      .values [ascii "TRUE"]
    else .noSearchEntry
  attributeName := ⟨ascii "webcontrolInetStatus", by decide⟩
  values_ne_nil _ search' := by split <;> simp

def sampleSetup : Setup Unit where
  build := ⟨false⟩
  inetPton := ipv4Only
  denyByDefault := true
  directory := sampleDirectory
  libldap := ⟨fun _ _ => true, fun _ _ _ => true, fun _ => true⟩
  connection := ⟨some ⟨ascii "ldap://10.1.1.10", by decide⟩, none, none⟩
  config := configValuesInit
  template := documentedTemplate
  filename := ascii "webcontrol_hosts.txt"

/-- The hosts file stays, and the cache works. -/
def quietHour : Chance sampleSetup.SiteOccasion where
  garbage _ := 0
  get := true
  set := true
  drop _ := false
  foreign _ := none
  other := ⟨some sampleHosts, ()⟩

def twiceTheSame : List StdinRead := [.data [ascii "1 10.0.0.2", ascii "2 10.0.0.2"] false]

/-- The second answer comes from the cache. -/
def askedTwice : List (Action 1 (Chance sampleSetup.SiteOccasion)) :=
  [.stdin, .go, .go, .go, .go] ++ List.replicate 15 (.worker (Fin.last 0) quietHour)

theorem answer_is_backed_askedTwice :
    ∃ s, (helper (sampleSetup.siteCore [.txtfile, .activeDirectory] 0 memcachedSample) 1).exec
        (State.init 1 twiceTheSame ⟨fun _ => none, .start sampleSetup.filename (some sampleHosts)⟩)
        askedTwice = some s ∧
      .request ⟨1, ascii "2 10.0.0.2"⟩ (.responded (ascii "2 OK")) ∈ s.log ∧
      ∃ req a, parseRequest ⟨false⟩ ipv4Only (ascii "2 10.0.0.2") = .valid req ∧
        req.ipAddr.sockaddr = some a := by
  have hrun : ((helper (sampleSetup.siteCore [.txtfile, .activeDirectory] 0 memcachedSample) 1).exec
      (State.init 1 twiceTheSame ⟨fun _ => none, .start sampleSetup.filename (some sampleHosts)⟩)
      askedTwice).any (fun s => decide
        (.request ⟨1, ascii "2 10.0.0.2"⟩ (.responded (ascii "2 OK")) ∈ s.log)) = true := by
    decide +kernel
  obtain ⟨s, hs, hp⟩ := (Option.any_eq_true _ _).mp hrun
  have hout := of_decide_eq_true hp
  have htells : Tells (sampleSetup.siteCore [.txtfile, .activeDirectory] 0 memcachedSample)
      (ascii "2 10.0.0.2") (ascii "2 OK") .allow := by
    have hok : ascii "2 OK" = sendResponse (lineChannel (ascii "2 10.0.0.2")) 0 none := by decide
    rw [hok]
    exact .allow
  obtain ⟨req, a, hvalid, hsock, -⟩ := answer_is_backed rfl (fun _ _ => rfl) hs hout htells
  exact ⟨s, hs, hout, req, a, hvalid, hsock⟩

end Run

end Site

end SquidHelper
