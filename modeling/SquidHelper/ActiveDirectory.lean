/-
SquidHelper/ActiveDirectory.lean

`src/plugins/mod_activedirectory/webcontrol_activedirectory.c`: the client's name, as reverse
DNS has it, is put into a filter, and what the directory finds decides.

The filter is printed into a buffer that was asked to hold it without its NUL.  It fits,
because `buffer_prepare_copy` rounds up by at least one byte.  The name is printed as it
came, and a name with a parenthesis, an asterisk or a backslash in it makes another filter.

`getnameinfo` and libldap are parameters (`Directory`).
-/
import SquidHelper.Buffers
import SquidHelper.Config
import SquidHelper.Memcached
import SquidHelper.Lib.LdapFilter

namespace SquidHelper

namespace ActiveDirectory

open CString Format LdapFilter Config

variable {σ ω : Type*}

/-- From `limits.h`. -/
def HOST_NAME_MAX : ℕ := 64

/-- A name that fits into `char hostname[HOST_NAME_MAX+1]` with its NUL. -/
abbrev Hostname := {h : List Byte // NUL ∉ h ∧ h.length ≤ HOST_NAME_MAX}

/-- `plugin_config`, without what only `thread_init` reads. -/
structure PluginConfig where
  basedn : Option Argument
  filter : Option Argument
  filterLen : ℕ
  attributeName : Option Argument

/-- `config_values_init`. -/
def configValuesInit : PluginConfig := ⟨none, none, 0, none⟩

/-- `webcontrol_activedirectory_processconfig`. -/
def processconfig (pd : PluginConfig) : PluginConfig :=
  match pd.filter with
  | none => pd
  | some filter => { pd with filterLen := filter.val.length }

/-! ### The filter -/

/-- What the handler runs into instead of continuing. -/
inductive HandlerFault
  | memory (f : Fault)
  /-- The format has a conversion that `sprintf` gets no string for. -/
  | conversion
  deriving DecidableEq, Repr

/-- `a - b` in `size_t`. -/
def sizeSub (a b : ℕ) : ℕ := if b ≤ a then a - b else sizeMod + a - b

/-- `sprintf(ptr, format, ..)`: the bytes it puts out and the NUL behind them. -/
def sprintf (ptr : Option (List Cell)) (format : Option Argument) (args : List (List Byte)) :
    Except HandlerFault (Option (List Cell)) :=
  match format with
  | none => .error (.memory .nullPointer)
  | some format =>
      match render format.val args with
      | none => .error .conversion
      | some out => (memcpy ptr 0 (out ++ [NUL])).mapError .memory

/-- `hostname_len + config->filter_len - 2`. -/
def filterLen (config : PluginConfig) (hostname : Hostname) : ℕ :=
  sizeSub (hostname.val.length + config.filterLen) 2

/-- `assembled_filter` before the search. -/
def assembleFilter (config : PluginConfig) (hostname : Hostname) : Except HandlerFault Buffer := do
  let assembledFilter := bufferPrepareCopy bufferInit (filterLen config hostname)
  let ptr ← sprintf assembledFilter.ptr config.filter [hostname.val]
  return { assembledFilter with ptr := ptr, len := filterLen config hostname }

/-! ### The handler -/

/-- The arguments of `ldap_search_ext` that the configuration and the client decide. -/
structure Search where
  base : Option Argument
  filter : List Byte
  attrib : Argument

/-- What comes of a search. -/
inductive SearchResult
  /-- `ldap_search_ext` does not return `LDAP_SUCCESS`. -/
  | failed
  /-- `ldap_result` does not return `LDAP_RES_SEARCH_ENTRY`. -/
  | noSearchEntry
  /-- `ldap_first_entry` returns `NULL`. -/
  | noEntry
  /-- `ldap_first_attribute` or `ldap_get_values_len` returns `NULL`. -/
  | noValues
  /-- What `bv_val` points to, for each of the values. -/
  | values (bvVals : List (List Byte))

/-- What is outside of the plugin. -/
structure Directory (σ : Type*) where
  /-- The name that `getnameinfo` finds for `sockaddr`, none when it does not return 0. -/
  getnameinfo : σ → Option Address → Option Hostname
  search : σ → Search → SearchResult
  /-- `WEBCONTROL_ACTIVEDIRECTORY_ATTRIBUTENAME`. -/
  attributeName : Argument

/-- `webcontrol_rdns_lookup`. -/
def rdnsLookup (d : Directory σ) (o : σ) (addr : IpAddr) : Option Hostname :=
  d.getnameinfo o addr.sockaddr

/-- The search for an assembled filter; libldap reads the filter up to its NUL. -/
def searchFor (d : Directory σ) (config : PluginConfig) (assembledFilter : Buffer) : Search where
  base := config.basedn
  filter := cString (assembledFilter.memory.getD [])
  attrib := config.attributeName.getD d.attributeName

/-- The rest of the handler, after the search: the first value decides. -/
def readResult (world : ω) : SearchResult → Except HandlerFault (HandlerResult ω)
  | .failed | .noSearchEntry | .noEntry | .noValues => .ok ⟨.goOn, false, world⟩
  | .values [] => .error (.memory .nullPointer)
  | .values (bvVal :: _) =>
      .ok ⟨if str4Cmp bvVal 84 82 85 69 then .allow else .deny, false, world⟩

/-- `webcontrol_activedirectory_handle_request`. -/
def handleRequest (d : Directory σ) (config : PluginConfig) (o : σ) (world : ω) (req : Request) :
    Except HandlerFault (HandlerResult ω) :=
  match rdnsLookup d o req.ipAddr with
  | none => .ok ⟨.goOn, false, world⟩
  | some hostname =>
      match assembleFilter config hostname with
      | .error f => .error f
      | .ok assembledFilter => readResult world (d.search o (searchFor d config assembledFilter))

/-! ### Filters from a template -/

/-- A filter with one `%s` and no other `%`. -/
structure Template where
  before : List Byte
  after : List Byte
  percent_before : PERCENT ∉ before
  percent_after : PERCENT ∉ after
  nul_before : NUL ∉ before
  nul_after : NUL ∉ after

/-- The template as it is in the configuration file. -/
def Template.text (t : Template) : Argument :=
  ⟨t.before ++ stringConversion ++ t.after, by
    have hconversion : NUL ∉ stringConversion := by decide
    simp only [List.mem_append, t.nul_before, t.nul_after, hconversion, or_self,
      not_false_eq_true]⟩

/-- The template with a name in the place of `%s`. -/
def Template.fill (t : Template) (name : List Byte) : List Byte := t.before ++ name ++ t.after

/-- The configuration once libconfuse has read the template. -/
def configured (config : PluginConfig) (t : Template) : PluginConfig :=
  processconfig { config with filter := some t.text }

/-- The numbers that are computed for a filter. -/
def assembleSizes (config : PluginConfig) (hostname : Hostname) : List ℕ :=
  [hostname.val.length + config.filterLen, filterLen config hostname] ++
    prepareCopySizes bufferInit (filterLen config hostname)

/-- What a pointer to a printed string gives access to. -/
theorem memory_printed {b : Buffer} {out : List Byte} {n : ℕ}
    (h : b.ptr = some ((out ++ [NUL]).map some ++ List.replicate n none)) :
    b.memory = some (out ++ NUL :: List.replicate n NUL) := by
  simp only [Buffer.memory, h, Option.map_some, List.map_append, List.map_map,
    List.map_replicate, List.map_cons, List.map_nil, Option.getD_none, Option.getD_some,
    List.append_assoc, List.singleton_append]
  congr 2
  exact List.map_id _

section Assembled

variable (t : Template) (config : PluginConfig) (hostname : Hostname)

theorem Template.nul_fill : NUL ∉ t.fill hostname.val := by
  simp only [Template.fill, List.mem_append, t.nul_before, t.nul_after, hostname.property.1,
    or_self, not_false_eq_true]

theorem Template.length_fill :
    (t.fill hostname.val).length = t.before.length + hostname.val.length + t.after.length := by
  rw [Template.fill, List.length_append, List.length_append]

theorem configured_filterLen :
    (configured config t).filterLen = t.before.length + 2 + t.after.length := by
  show (t.before ++ stringConversion ++ t.after).length = _
  rw [List.length_append, List.length_append]
  rfl

/-- The two bytes of `%s` make room for the name. -/
theorem filterLen_configured :
    filterLen (configured config t) hostname = (t.fill hostname.val).length := by
  have htwo : 2 ≤ hostname.val.length + (t.before.length + 2 + t.after.length) := by omega
  rw [filterLen, configured_filterLen, sizeSub, if_pos htwo, Template.length_fill]
  omega

theorem sprintf_template {n : ℕ} (hroom : (t.fill hostname.val).length < n) :
    sprintf (malloc n) (some t.text) [hostname.val]
      = .ok (some ((t.fill hostname.val ++ [NUL]).map some ++
          List.replicate (n - ((t.fill hostname.val).length + 1)) none)) := by
  have hfit : (t.fill hostname.val ++ [NUL]).length ≤ n := by
    rw [List.length_append, List.length_singleton]
    exact hroom
  have hrender : render t.text.val [hostname.val] = some (t.fill hostname.val) :=
    render_template t.percent_before t.percent_after hostname.val
  simp only [sprintf, hrender, memcpy_malloc hfit, Except.mapError, List.length_append,
    List.length_singleton]

/-- The buffer that is handed to the search. -/
theorem assembleFilter_configured :
    assembleFilter (configured config t) hostname
      = .ok ⟨some ((t.fill hostname.val ++ [NUL]).map some ++
              List.replicate (roundUp (t.fill hostname.val).length
                - ((t.fill hostname.val).length + 1)) none),
            (t.fill hostname.val).length, roundUp (t.fill hostname.val).length⟩ := by
  have hfilter : (configured config t).filter = some t.text := rfl
  -- the size that is asked for leaves out the NUL; the rounding makes room for it
  have hroom := lt_roundUp (t.fill hostname.val).length
  rw [assembleFilter, filterLen_configured, bufferPrepareCopy_bufferInit, hfilter]
  simp only [sprintf_template t hostname hroom, bind, Except.bind, pure, Except.pure]

/-- No size gets larger than the template, a name and a piece together. -/
theorem assembleSizes_le {size : ℕ}
    (h : size ∈ assembleSizes (configured config t) hostname) :
    size ≤ t.text.val.length + HOST_NAME_MAX + BUFFER_PIECE_SIZE := by
  have htext : t.text.val.length = t.before.length + 2 + t.after.length :=
    configured_filterLen t config
  have hname := hostname.property.2
  have hround := roundUp_le (filterLen (configured config t) hostname)
  have hfresh : prepareCopySizes bufferInit (filterLen (configured config t) hostname)
      = [roundUp (filterLen (configured config t) hostname)] := if_pos (.inl rfl)
  rw [assembleSizes, hfresh] at h
  simp only [List.mem_append, List.mem_cons, List.not_mem_nil, or_false] at h
  rw [configured_filterLen, filterLen_configured, Template.length_fill] at h
  rw [filterLen_configured, Template.length_fill] at hround
  rcases h with (rfl | rfl) | rfl <;> omega

/-- What a pointer to the assembled filter gives access to. -/
theorem memory_assembledFilter {b : Buffer} {n : ℕ}
    (h : b.ptr = some ((t.fill hostname.val ++ [NUL]).map some ++ List.replicate n none)) :
    b.memory = some (t.fill hostname.val ++ NUL :: List.replicate n NUL) :=
  memory_printed h

/-- **The filter is printed exactly, and it fits**, for every template and every name: the
size that is asked for does not underflow and has no room for the NUL, but the buffer has;
what is behind the NUL is not touched; `len` is the length of the string.  No size is
near the end of `size_t`, the template being an object in memory. -/
theorem assembledFilter_fits :
    2 ≤ hostname.val.length + (configured config t).filterLen ∧
    filterLen (configured config t) hostname
      = t.before.length + hostname.val.length + t.after.length ∧
    t.before.length + hostname.val.length + t.after.length + 1
      ≤ (bufferPrepareCopy bufferInit (filterLen (configured config t) hostname)).capacity ∧
    (∀ size ∈ assembleSizes (configured config t) hostname,
      size ≤ t.text.val.length + HOST_NAME_MAX + BUFFER_PIECE_SIZE) ∧
    ∃ b m, assembleFilter (configured config t) hostname = .ok b ∧
      b.capacity
        = (bufferPrepareCopy bufferInit (filterLen (configured config t) hostname)).capacity ∧
      b.ptr = some ((t.before ++ hostname.val ++ t.after ++ [NUL]).map some ++ List.replicate
        (b.capacity - (t.before.length + hostname.val.length + t.after.length + 1)) none) ∧
      b.memory = some m ∧ cString m = t.before ++ hostname.val ++ t.after ∧
      strlen m = some b.len := by
  have hroom := lt_roundUp (t.fill hostname.val).length
  rw [Template.length_fill] at hroom
  refine ⟨?_, ?_, ?_, fun size => assembleSizes_le t config hostname, _, _,
    assembleFilter_configured t config hostname, ?_, ?_, memory_assembledFilter t hostname rfl,
    cString_append_nul (t.nul_fill hostname) _, strlen_append_nul (t.nul_fill hostname) _⟩
  · rw [configured_filterLen]
    omega
  · rw [filterLen_configured, Template.length_fill]
  · rw [filterLen_configured, bufferPrepareCopy_bufferInit, Template.length_fill]
    exact hroom
  · rw [filterLen_configured, bufferPrepareCopy_bufferInit]
  · rw [Template.length_fill]
    rfl

end Assembled

/-! ### What is asked of the directory -/

section Search

variable (d : Directory σ) (config : PluginConfig) (t : Template)

/-- The buffer for a name, and the filter that libldap reads from it. -/
theorem exists_searchFor (hostname : Hostname) :
    ∃ b, assembleFilter (configured config t) hostname = .ok b ∧
      searchFor d (configured config t) b
        = ⟨config.basedn, t.fill hostname.val, config.attributeName.getD d.attributeName⟩ := by
  refine ⟨_, assembleFilter_configured t config hostname, ?_⟩
  rw [searchFor, memory_assembledFilter t hostname rfl, Option.getD_some,
    cString_append_nul (t.nul_fill hostname)]
  rfl

/-- **The handler, for a configured template**: the name that was found is put into the
template, and the first value that comes back for it decides. -/
theorem handleRequest_configured (o : σ) (world : ω) (req : Request) :
    handleRequest d (configured config t) o world req
      = match rdnsLookup d o req.ipAddr with
        | none => .ok ⟨.goOn, false, world⟩
        | some hostname => readResult world (d.search o ⟨config.basedn, t.fill hostname.val,
            config.attributeName.getD d.attributeName⟩) := by
  rw [handleRequest]
  cases rdnsLookup d o req.ipAddr with
  | none => rfl
  | some hostname =>
      obtain ⟨b, hb, hsearch⟩ := exists_searchFor d config t hostname
      simp only [hb, hsearch]

/-- The search for `hostname` has the structure of the template, and where the template has
`%s` it asks for `hostname` only. -/
def AsksForHostname (hostname : Hostname) : Prop :=
  ∃ b, assembleFilter (configured config t) hostname = .ok b ∧
    KeepsStructure t.before t.after hostname.val (searchFor d (configured config t) b).filter ∧
    ∃ text, (searchFor d (configured config t) b).filter = t.before ++ text ++ t.after ∧
      AsksFor text hostname.val

/-- The filter is the template with the name in it. -/
theorem asksForHostname_iff_keepsStructure (hostname : Hostname) :
    AsksForHostname d config t hostname ↔
      KeepsStructure t.before t.after hostname.val (t.before ++ hostname.val ++ t.after) := by
  obtain ⟨b, hb, hsearch⟩ := exists_searchFor d config t hostname
  have hfilter : (searchFor d (configured config t) b).filter
      = t.before ++ hostname.val ++ t.after := by
    rw [hsearch]
    rfl
  constructor
  · rintro ⟨b', hb', hkeeps, -⟩
    rw [hb] at hb'
    cases hb'
    rwa [hfilter] at hkeeps
  · intro h
    rw [← hfilter] at h
    exact ⟨b, hb, h, h.asksFor⟩

/-- **The client's name leaves the search as it is meant to be if and only if there is no
parenthesis, asterisk or backslash in it.** -/
theorem asksForHostname_iff (hostname : Hostname) :
    AsksForHostname d config t hostname ↔
      ∀ c ∈ hostname.val, c ≠ LPAREN ∧ c ≠ RPAREN ∧ c ≠ STAR ∧ c ≠ BACKSLASH := by
  rw [asksForHostname_iff_keepsStructure, keepsStructure_iff]
  simp only [isSpecial, Bool.or_eq_false_iff, beq_eq_false_iff_ne, and_assoc]

end Search

/-- `(&(objectclass=computer)(dNSHostName=%s))`, from `webcontrol.conf`. -/
def documentedTemplate : Template where
  before := ascii "(&(objectclass=computer)(dNSHostName="
  after := ascii "))"
  percent_before := by decide
  percent_after := by decide
  nul_before := by decide
  nul_after := by decide

def asterisk : Hostname := ⟨[STAR], by decide⟩

/-- A client whose name is an asterisk is looked for as any computer. -/
theorem asterisk_not_asksForHostname :
    (∃ b, assembleFilter (configured configValuesInit documentedTemplate) asterisk = .ok b ∧
      cString (b.memory.getD []) = ascii "(&(objectclass=computer)(dNSHostName=*))") ∧
    (∃ p, parseValue asterisk.val = some p ∧ ∀ x, Pattern.Matches p x) ∧
    ∀ d : Directory Unit, ¬ AsksForHostname d configValuesInit documentedTemplate asterisk := by
  refine ⟨⟨_, assembleFilter_configured _ _ _, ?_⟩, ⟨[none], rfl, Pattern.matches_any⟩, ?_⟩
  · rw [memory_assembledFilter documentedTemplate _ rfl, Option.getD_some,
      cString_append_nul (documentedTemplate.nul_fill _)]
    rfl
  · intro d hasks
    rw [asksForHostname_iff_keepsStructure, keepsStructure_iff] at hasks
    cases hasks STAR (List.mem_singleton_self _)

/-! ### Filters of any form -/

/-- The configuration once libconfuse has read a filter, which need not be a template. -/
def withFilter (config : PluginConfig) (filter : Argument) : PluginConfig :=
  processconfig { config with filter := some filter }

/-- The filter for `hostname` is printed inside of its buffer, the size of which is computed
without an underflow. -/
def Assembles (config : PluginConfig) (hostname : Hostname) (b : Buffer) : Prop :=
  2 ≤ hostname.val.length + config.filterLen ∧ assembleFilter config hostname = .ok b

section AnyFilter

variable (config : PluginConfig) (filter : Argument) (hostname : Hostname)

theorem nul_not_mem_of_render {out : List Byte}
    (h : render filter.val [hostname.val] = some out) : NUL ∉ out := by
  intro hnul
  rcases mem_render h hnul with hfilter | ⟨arg, harg, hmem⟩
  · exact filter.property hfilter
  · rw [List.mem_singleton.mp harg] at hmem
    exact hostname.property.1 hmem

/-- The size that is asked for, when it does not underflow. -/
theorem filterLen_withFilter (h : 2 ≤ hostname.val.length + filter.val.length) :
    ActiveDirectory.filterLen (withFilter config filter) hostname
      = hostname.val.length + filter.val.length - 2 := if_pos h

/-- Printing succeeds if what is printed fits into the rounded size with its NUL. -/
theorem assembleFilter_withFilter {b : Buffer}
    (h : 2 ≤ hostname.val.length + filter.val.length) :
    assembleFilter (withFilter config filter) hostname = .ok b ↔
      ∃ out, render filter.val [hostname.val] = some out ∧
        out.length < roundUp (hostname.val.length + filter.val.length - 2) ∧
        b = ⟨some ((out ++ [NUL]).map some ++ List.replicate
              (roundUp (hostname.val.length + filter.val.length - 2) - (out.length + 1)) none),
            hostname.val.length + filter.val.length - 2,
            roundUp (hostname.val.length + filter.val.length - 2)⟩ := by
  have hset : (withFilter config filter).filter = some filter := rfl
  rw [assembleFilter, filterLen_withFilter config filter hostname h,
    bufferPrepareCopy_bufferInit, hset]
  simp only [sprintf]
  cases hrender : render filter.val [hostname.val] with
  | none => simp [bind, Except.bind]
  | some out =>
      by_cases hroom : out.length < roundUp (hostname.val.length + filter.val.length - 2)
      · have hfit : (out ++ [NUL]).length
            ≤ roundUp (hostname.val.length + filter.val.length - 2) := by
          rw [List.length_append, List.length_singleton]
          exact hroom
        simp [memcpy_malloc hfit, Except.mapError, bind, Except.bind, pure, Except.pure, hroom,
          eq_comm]
      · have hfit : ¬ (out ++ [NUL]).length
            ≤ roundUp (hostname.val.length + filter.val.length - 2) := by
          rw [List.length_append, List.length_singleton]
          exact hroom
        simp [memcpy_malloc_error hfit, Except.mapError, bind, Except.bind, hroom]

variable {filter}

/-- The lengths of what is printed; two `%s` have no second name. -/
theorem length_render_filter {strings percents : ℕ}
    (h : conversions filter.val = some (strings, percents)) {out : List Byte}
    (hout : render filter.val [hostname.val] = some out) :
    strings = 0 ∧ out.length + percents = filter.val.length ∨
      strings = 1 ∧ out.length + 2 + percents = filter.val.length + hostname.val.length := by
  by_cases hone : strings ≤ 1
  · obtain ⟨out', hout', hlen⟩ := @length_render _ _ h [hostname.val] hone
    rw [hout] at hout'
    cases hout'
    interval_cases strings
    · exact .inl ⟨rfl, by simpa using hlen⟩
    · exact .inr ⟨rfl, by simpa using hlen⟩
  · rw [render_eq_none h (by simp only [List.length_singleton]; omega)] at hout
    cases hout

/-- **One name**: its filter stays inside of the buffer if there is one `%s`, and otherwise
only if the name makes the size that is asked for large enough. -/
theorem exists_assembles_iff {strings percents : ℕ}
    (h : conversions filter.val = some (strings, percents)) :
    (∃ b, Assembles (withFilter config filter) hostname b) ↔
      strings = 1 ∨ strings = 0 ∧ 2 ≤ hostname.val.length + filter.val.length ∧
        filter.val.length - percents < roundUp (hostname.val.length + filter.val.length - 2) := by
  have hsize := lt_roundUp (hostname.val.length + filter.val.length - 2)
  constructor
  · rintro ⟨b, htwo, hb⟩
    obtain ⟨out, hout, hroom, -⟩ :=
      (assembleFilter_withFilter config filter hostname htwo).mp hb
    rcases length_render_filter hostname h hout with ⟨hzero, hlen⟩ | ⟨hone, -⟩
    · exact .inr ⟨hzero, htwo, by omega⟩
    · exact .inl hone
  · intro hsafe
    have hone : strings ≤ 1 := by omega
    obtain ⟨out, hout, -⟩ := @length_render _ _ h [hostname.val] hone
    have hlen := length_render_filter hostname h hout
    -- the two bytes of a `%s` are there also without a name
    have hbytes := two_mul_conversions_le h
    have htwo : 2 ≤ hostname.val.length + filter.val.length := by omega
    exact ⟨_, htwo, (assembleFilter_withFilter config filter hostname htwo).mpr
      ⟨out, hout, by omega, rfl⟩⟩

end AnyFilter

/-- The shortest name there is. -/
def oneByte : Hostname := ⟨ascii "a", by decide⟩

def twoBytes : Hostname := ⟨ascii "ab", by decide⟩

/-- **A filter stays inside of its buffer for every client** if and only if it has one `%s`,
or none and either a `%%` or a length that is no multiple of the piece size.  Without a `%s`
the two bytes are subtracted all the same, and only the rounding is left to make up for them
and for the NUL; a second `%s` has no argument. -/
theorem assembles_forall_iff (config : PluginConfig) (filter : Argument) {strings percents : ℕ}
    (h : conversions filter.val = some (strings, percents)) :
    (∀ hostname : Hostname, hostname.val ≠ [] →
        ∃ b, Assembles (withFilter config filter) hostname b) ↔
      strings = 1 ∨
        strings = 0 ∧ (0 < percents ∨ ¬ BUFFER_PIECE_SIZE ∣ filter.val.length) := by
  simp only [exists_assembles_iff config _ h]
  constructor
  · intro hall
    rcases hall oneByte (by decide) with hone | ⟨hzero, htwo, hroom⟩
    · exact .inl hone
    · refine .inr ⟨hzero, ?_⟩
      by_contra hnot
      rw [not_or, not_lt, not_not] at hnot
      obtain ⟨hpercents, hdvd⟩ := hnot
      have hlength : oneByte.val.length = 1 := rfl
      rw [hlength] at htwo hroom
      simp only [roundUp, BUFFER_PIECE_SIZE] at hdvd hroom
      omega
  · rintro (hone | ⟨hzero, hroom⟩) hostname hne
    · exact .inl hone
    · have hpos := List.length_pos_of_ne_nil hne
      have hsize := lt_roundUp (hostname.val.length + filter.val.length - 2)
      have hdvd := dvd_roundUp (hostname.val.length + filter.val.length - 2)
      have hbytes := two_mul_conversions_le h
      refine .inr ⟨hzero, ?_⟩
      rcases hroom with hpercents | hndvd
      · omega
      · have hne : roundUp (hostname.val.length + filter.val.length - 2) ≠ filter.val.length :=
          fun heq => hndvd (heq ▸ hdvd)
        have hnonempty : filter.val.length ≠ 0 := fun heq => hndvd (heq ▸ dvd_zero _)
        omega

/-- A text of 64 bytes without any conversion is written one byte past its buffer for a
client whose name has one byte. -/
theorem assembles_forall_iff_piece :
    conversions (List.replicate 64 97) = some (0, 0) ∧
    ¬ ∀ hostname : Hostname, hostname.val ≠ [] →
        ∃ b, Assembles (withFilter configValuesInit ⟨List.replicate 64 97, by decide⟩)
          hostname b := by
  have hnone : conversions (List.replicate 64 97) = some (0, 0) := by decide
  refine ⟨hnone, fun hall => ?_⟩
  rcases (assembles_forall_iff configValuesInit ⟨List.replicate 64 97, by decide⟩ hnone).mp hall
    with hone | ⟨-, hpercents | hndvd⟩
  · cases hone
  · exact absurd hpercents (lt_irrefl 0)
  · exact hndvd (by decide)

/-! ### The assertion that is left out -/

/-- `assembled_filter->len == strlen(assembled_filter->ptr)`. -/
def LenIsStrlen (b : Buffer) : Prop := ∃ m, b.memory = some m ∧ strlen m = some b.len

/-- The length that is computed for a name is that of what is printed. -/
theorem lenIsStrlen_iff (config : PluginConfig) {filter : Argument} {hostname : Hostname}
    {b : Buffer} (h : Assembles (withFilter config filter) hostname b) :
    ∃ out, render filter.val [hostname.val] = some out ∧
      (LenIsStrlen b ↔ out.length + 2 = hostname.val.length + filter.val.length) := by
  obtain ⟨htwo, hb⟩ := h
  have htwo : 2 ≤ hostname.val.length + filter.val.length := htwo
  obtain ⟨out, hout, -, hbuffer⟩ := (assembleFilter_withFilter config filter hostname htwo).mp hb
  have hlen : b.len = hostname.val.length + filter.val.length - 2 := by rw [hbuffer]
  have hstrlen := fun n =>
    strlen_append_nul (nul_not_mem_of_render filter hostname hout) (List.replicate n NUL)
  refine ⟨out, hout, ?_⟩
  simp only [LenIsStrlen, memory_printed (congrArg Buffer.ptr hbuffer), hlen, Option.some.injEq,
    exists_eq_left', hstrlen]
  omega

/-- **The assertion holds for every client if and only if the filter is a template**: one
`%s` and no other `%`. -/
theorem lenIsStrlen_forall_iff (config : PluginConfig) (filter : Argument)
    (h : (conversions filter.val).isSome) :
    (∀ hostname : Hostname, hostname.val ≠ [] →
        ∃ b, Assembles (withFilter config filter) hostname b ∧ LenIsStrlen b) ↔
      ∃ t : Template, t.text = filter := by
  obtain ⟨⟨strings, percents⟩, hconversions⟩ := Option.isSome_iff_exists.mp h
  constructor
  · intro hall
    -- one length cannot be right for two names, unless the name is printed
    have hlength : ∀ hostname : Hostname, hostname.val ≠ [] →
        strings = 0 ∧ hostname.val.length + percents = 2 ∨ strings = 1 ∧ percents = 0 := by
      intro hostname hne
      obtain ⟨b, hb, hassert⟩ := hall hostname hne
      obtain ⟨out, hout, hiff⟩ := lenIsStrlen_iff config hb
      have hlen := hiff.mp hassert
      have hrender := length_render_filter hostname hconversions hout
      omega
    have hone := hlength oneByte (by decide)
    have htwo := hlength twoBytes (by decide)
    have honeByte : oneByte.val.length = 1 := rfl
    have htwoBytes : twoBytes.val.length = 2 := rfl
    obtain ⟨rfl, rfl⟩ : strings = 1 ∧ percents = 0 := by omega
    obtain ⟨before, after, hbefore, hafter, htext⟩ := conversions_eq_one_iff.mp hconversions
    have hnul := filter.property
    rw [htext] at hnul
    simp only [List.mem_append, not_or] at hnul
    exact ⟨⟨before, after, hbefore, hafter, hnul.1.1, hnul.2⟩, Subtype.ext htext.symm⟩
  · rintro ⟨t, rfl⟩ hostname -
    have hone : conversions t.text.val = some (1, 0) := conversions_eq_one_iff.mpr
      ⟨t.before, t.after, t.percent_before, t.percent_after, rfl⟩
    obtain ⟨b, hb⟩ := (exists_assembles_iff config hostname hone).mpr (.inl rfl)
    obtain ⟨out, hout, hiff⟩ := lenIsStrlen_iff config hb
    have hlen := length_render_filter hostname hone hout
    exact ⟨b, hb, hiff.mpr (by omega)⟩

/-- The assertion holds for the filter of `webcontrol.conf`. -/
theorem lenIsStrlen_forall_iff_documented :
    (conversions documentedTemplate.text.val).isSome = true ∧
    ∀ hostname : Hostname, hostname.val ≠ [] →
      ∃ b, Assembles (withFilter configValuesInit documentedTemplate.text) hostname b ∧
        LenIsStrlen b := by
  have hsome : (conversions documentedTemplate.text.val).isSome = true := by decide
  exact ⟨hsome, (lenIsStrlen_forall_iff configValuesInit documentedTemplate.text hsome).mpr
    ⟨documentedTemplate, rfl⟩⟩

end ActiveDirectory

end SquidHelper
